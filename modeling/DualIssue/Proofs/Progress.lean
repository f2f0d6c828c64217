import DualIssue.Proofs.Board
import DualIssue.Proofs.Budget

/-!
# List scheduling runs to its end

Over a graph with forward edges, and with no delimiter but in the last slot, list scheduling issues
everything. The least slot that has not issued is always ready, so the board never runs dry; a delimiter
issues only when nothing else is ready, and then nothing else is left. What remains is overflow, and that
is bounded by a budget: if each slot is given a cost that covers its own delays, no cycle count ever
exceeds the sum of the costs.

* **`Sound.ready_ne_nil`**: something is ready as long as something has not issued.
* **`DelimiterIsLast`**: once a delimiter has issued, everything has, and it is last.
* **`WithinBudget`**: all cycle counts are paid for by what has issued.
* **`listSchedule_completes`** puts them together: a run stays **`OnTrack`**.
-/

namespace DualIssue

open DualIssue.Graph

namespace Board

section Progress

variable {g : Graph} {b b' : Board} {time : Nat} {slots : List Slot}

/-- The least slot that has not issued is ready, so below the first ready slot everything has issued. Strong
induction on the slot: over forward edges its predecessors are lower. -/
theorem Sound.mem_order_of_none_ready (h : Sound g b) (hf : g.Forward) {n : Nat} (hn : n ≤ g.size)
    (hnone : ∀ u, u < n → u ∉ b.ready) (u : Nat) (hu : u < n) : u ∈ b.order := by
  induction u using Nat.strong_induction_on with
  | _ u ih =>
    refine Classical.byContradiction fun hnot => hnone u hu ?_
    refine (h.mem_ready_iff u).mpr ⟨Nat.lt_of_lt_of_le hu hn, hnot, ?_⟩
    intro d hd
    have hlt : d.slot < u := hf d.slot u ⟨d, hd, rfl⟩
    exact ih d.slot hlt (Nat.lt_trans hlt hu)

/-- No slot issues twice, so the order is complete when every slot is in it. -/
theorem Sound.length_eq_of_forall_mem (h : Sound g b) (hall : ∀ u : Nat, u < g.size → u ∈ b.order) :
    b.order.length = g.size := by
  have hsub : List.range g.size ⊆ b.order := fun u hu => hall u (List.mem_range.mp hu)
  have hge := (List.subperm_of_subset List.nodup_range hsub).length_le
  have hle := h.length_order_le
  rw [List.length_range] at hge
  omega

/-- **The board never runs dry.** With nothing ready everything would have issued. -/
theorem Sound.ready_ne_nil (h : Sound g b) (hf : g.Forward) (hlt : b.order.length < g.size) :
    b.ready ≠ [] := by
  intro hnil
  have hnone : ∀ u, u < g.size → u ∉ b.ready := by
    intro u _ hu
    rw [hnil] at hu
    cases hu
  have hlength := h.length_eq_of_forall_mem (h.mem_order_of_none_ready hf (Nat.le_refl _) hnone)
  omega

/-! ## Delimiters

A delimiter is in the last slot, and it is offered only when nothing else is ready. By what was shown above
everything below the last slot has issued by then. -/

/-- When a delimiter issues, it issues alone and all inner slots have issued. It was offered because no inner
slot is ready. -/
theorem Sound.inner_issued_of_delimiter (h : Sound g b) (hf : g.Forward)
    (hdelim : ∀ s : Nat, b.isDelimiter s = true → s + 1 = g.size) (hc : b.Chosen time slots)
    {s : Slot} (hs : s ∈ slots) (hsd : b.isDelimiter s = true) :
    slots = [s] ∧ ∀ u : Nat, u + 1 < g.size → u ∈ b.order := by
  rcases hc.inner_or_delimiter with hinner | ⟨hnone, s', rfl, _⟩
  · have hfalse := hinner s hs
    rw [hsd] at hfalse
    cases hfalse
  · have hss' : s = s' := List.mem_singleton.mp hs
    refine ⟨by rw [hss'], fun u hu => ?_⟩
    refine h.mem_order_of_none_ready hf (Nat.sub_le g.size 1) ?_ u (Nat.lt_sub_of_add_lt hu)
    -- a slot that is ready and no delimiter would be a ready inner slot
    intro v hv hready
    have hnotdelim : b.isDelimiter v = false := by
      cases hd : b.isDelimiter v with
      | false => rfl
      | true =>
        have := hdelim v hd
        omega
    have hmem : v ∈ b.readyInner := mem_readyInner_iff.mpr ⟨hready, hnotdelim⟩
    rw [hnone] at hmem
    cases hmem

/-- An issued delimiter is the last of all. -/
def DelimiterIsLast (g : Graph) (b : Board) : Prop :=
  ∀ s ∈ b.order, b.isDelimiter s = true → b.order.getLast? = some s ∧ b.order.length = g.size

/-- **The step.** A delimiter that has issued before leaves nothing to choose. One that issues now comes last,
and it completes the order. -/
theorem DelimiterIsLast.step (h : Sound g b) (hf : g.Forward)
    (hdelim : ∀ s : Nat, b.isDelimiter s = true → s + 1 = g.size) (hlast : DelimiterIsLast g b)
    (hc : b.Chosen time slots) (hi : Issued g b time slots b') : DelimiterIsLast g b' := by
  intro s hs hsd
  rw [isDelimiter_of_sameBlock hi.given_eq] at hsd
  rw [hi.order_eq] at hs ⊢
  rcases List.mem_append.mp hs with hs | hs
  · -- then everything has issued, and nothing was left to choose
    have hlength := (hlast s hs hsd).2
    obtain ⟨c, hc'⟩ := List.exists_mem_of_ne_nil slots hc.ne_nil
    obtain ⟨hlt, hnot, _⟩ := (h.mem_ready_iff c).mp (hc.mem_ready c hc')
    have hperm := h.order_perm hlength
    exact absurd (hperm.mem_iff.mpr (List.mem_range.mpr hlt)) hnot
  · obtain ⟨rfl, hall⟩ := h.inner_issued_of_delimiter hf hdelim hc hs hsd
    -- the delimiter is the one slot that was missing
    have hnext := h.step hc hi
    have hlength : b'.order.length = g.size := by
      refine hnext.length_eq_of_forall_mem ?_
      intro u hu
      rw [hi.order_eq]
      have hsize := hdelim s hsd
      rcases Nat.lt_or_ge (u + 1) g.size with hlt | hge
      · exact List.mem_append_left _ (hall u hlt)
      · have heq : u = s := by
          have : s + 1 = g.size := hsize
          omega
        rw [heq]
        exact List.mem_append_right _ (List.mem_singleton.mpr rfl)
    rw [hi.order_eq] at hlength
    exact ⟨List.getLast?_concat, hlength⟩

/-! ## Budgets

A cost for each slot covers the delays if it pays for the slot itself and for every edge that leaves it. Then
the clock and all times of arrival stay below what the issued slots cost together: the clock either moves on by
one, paid for by what issues, or jumps to the ready time of a slot, paid for by a predecessor. -/

theorem latencyAt_of_sameBlock {records records' : Array Record} (hsame : SameBlock records records') :
    latencyAt records' = latencyAt records := by
  funext s
  unfold latencyAt
  rw [hsame.map_eq (·.latency) (fun _ => rfl) s]

/-- What comes over an edge arrives within the cost of its source. -/
theorem arrival_le {cost : Slot → Nat} (hcov : CoversDelays g (latencyAt b.records) cost) {s : Slot}
    {d : Dependency} (hd : d ∈ g.predsOf s) : b.arrival d ≤ b.cycleOf d.slot + cost d.slot := by
  have hdelay := hcov.delay_le hd
  unfold latencyAt at hdelay
  unfold arrival cycleOf issueTime
  cases hr : b.records[d.slot]? with
  | none => exact Nat.zero_le _
  | some r =>
    rw [hr] at hdelay
    simp only [Option.bind_some, Option.map_some, Option.getD_some] at hdelay ⊢
    split <;> omega

/-- Every cycle count is paid for by the slots that have issued. -/
structure WithinBudget (cost : Slot → Nat) (b : Board) : Prop where
  time_le : b.time ≤ totalCost cost b.order
  done_le : ∀ s ∈ b.order, b.cycleOf s + cost s ≤ totalCost cost b.order

/-- A slot is ready when the last of its predecessors has delivered, and these have issued and paid. -/
theorem WithinBudget.readyTime_le {cost : Slot → Nat} (hw : WithinBudget cost b) (h : Sound g b)
    (hcov : CoversDelays g (latencyAt b.records) cost) {s : Slot} (hs : s ∈ b.ready) :
    b.readyTime s ≤ totalCost cost b.order := by
  rw [h.readyTime_eq s (Or.inr hs)]
  refine latest_le ?_
  intro a ha
  obtain ⟨d, hd, rfl⟩ := List.mem_map.mp ha
  have hissued : d.slot ∈ b.order := ((h.mem_ready_iff s).mp hs).2.2 d hd
  exact Nat.le_trans (arrival_le hcov hd) (hw.done_le d.slot hissued)

/-- The cycle that is offered is the current one, or that of the first slot to become ready. -/
theorem WithinBudget.offer_time_le {cost : Slot → Nat} (hw : WithinBudget cost b) (h : Sound g b)
    (hcov : CoversDelays g (latencyAt b.records) cost) {candidates : List Slot} (ho : b.Offer time candidates) :
    time ≤ totalCost cost b.order := by
  rcases ho.time_reached with hle | ⟨s, hs, hle⟩
  · exact Nat.le_trans hle hw.time_le
  · exact Nat.le_trans hle (hw.readyTime_le h hcov hs)

/-- A cycle pays for itself: whatever issues costs at least one cycle. What has issued before keeps its cycle,
and what issues now has the current one. -/
theorem WithinBudget.step {cost : Slot → Nat} (hw : WithinBudget cost b) (h : Sound g b)
    (hcov : CoversDelays g (latencyAt b.records) cost) (htime : time ≤ totalCost cost b.order)
    (hc : b.Chosen time slots) (hi : Issued g b time slots b') : WithinBudget cost b' := by
  have htotal : totalCost cost b'.order = totalCost cost b.order + totalCost cost slots := by
    rw [hi.order_eq, totalCost_append]
  constructor
  case time_le =>
    -- something issues, and it costs at least the one cycle by which the clock moves
    obtain ⟨s, hs⟩ := List.exists_mem_of_ne_nil slots hc.ne_nil
    have hpos := hcov.pos s
    have hle := cost_le_totalCost cost hs
    rw [hi.time_eq, htotal]
    omega
  case done_le =>
    intro s hs
    rw [htotal]
    rcases hi.mem_order_iff.mp hs with hs | hs
    · have hdone := hw.done_le s hs
      rw [h.cycleOf_kept hc hi hs]
      omega
    · have hle := cost_le_totalCost cost hs
      rw [h.cycleOf_chosen hc hi hs]
      omega

theorem sameBlock_foldl_issue (b : Board) (slots : List Slot) :
    SameBlock b.records (slots.foldl issue b).records := by
  intro i
  rw [getElem?_foldl_issue, Option.map_map]
  congr 1
  funext r
  show (if i ∈ slots then { r with issueTime := some b.time } else r).given = r.given
  split <;> rfl

/-- The slots that issue get the time of the clock, all others keep theirs. -/
theorem cycleOf_foldl_issue {s : Slot} (hs : s < b.records.size) :
    (slots.foldl issue b).cycleOf s = if s ∈ slots then b.time else b.cycleOf s := by
  unfold cycleOf issueTime
  rw [getElem?_foldl_issue, Array.getElem?_eq_getElem hs]
  simp only [Option.map_some, Option.bind_some]
  split <;> rfl

/-- **A budget that fits rules out overflow.** The clock after the cycle is paid for by what issues. An arrival
over an edge is paid for by its source, which issues now or has issued before. -/
theorem WithinBudget.not_overflows {cost : Slot → Nat} (hw : WithinBudget cost b) (h : Sound g b)
    (hcov : CoversDelays g (latencyAt b.records) cost) (htime : time ≤ totalCost cost b.order)
    (hc : b.Chosen time slots) (hfits : totalCost cost (List.range g.size) ≤ maxCycle) :
    ¬ Overflows g { b with time } slots := by
  have hexists : ∀ s ∈ b.order ++ slots, s < g.size := by
    intro s hs
    rcases List.mem_append.mp hs with hs | hs
    · exact h.order_lt s hs
    · exact (h.chosen_eligible hc hs).1
  -- all that has issued after the cycle is part of the block
  have htotal : totalCost cost b.order + totalCost cost slots ≤ maxCycle := by
    rw [← totalCost_append]
    refine Nat.le_trans (totalCost_le_range cost ?_ hexists) hfits
    exact List.nodup_append.mpr ⟨h.order_nodup, hc.nodup, fun s hs s' hs' heq =>
      h.not_chosen hc hs (heq ▸ hs')⟩
  rintro (hover | ⟨s, d, hd, hissued, hover⟩)
  · -- the clock
    obtain ⟨s, hs⟩ := List.exists_mem_of_ne_nil slots hc.ne_nil
    have hpos := hcov.pos s
    have hle := cost_le_totalCost cost hs
    have hover : maxCycle < time + 1 := hover
    omega
  · -- an arrival, over an edge whose source has issued by the end of the cycle
    have hsame := latencyAt_of_sameBlock (sameBlock_foldl_issue { b with time } slots)
    have harr := arrival_le (b := slots.foldl issue { b with time }) (by rw [hsame]; exact hcov) hd
    have hlt : d.slot < b.records.size := by
      rw [h.size_eq]
      exact hexists d.slot hissued
    rw [cycleOf_foldl_issue (b := { b with time }) hlt] at harr
    by_cases hmem : d.slot ∈ slots
    · have hle := cost_le_totalCost cost hmem
      rw [if_pos hmem] at harr
      dsimp only at harr
      omega
    · have hdone := hw.done_le d.slot ((List.mem_append.mp hissued).resolve_right hmem)
      have hold : Board.cycleOf { b with time } d.slot = b.cycleOf d.slot := rfl
      rw [if_neg hmem, hold] at harr
      omega

/-! ## The whole run

`OnTrack` holds of the first board and is kept by every cycle, so `listSchedule_spec` gives it for the last one.
There the run has ended with all slots issued, or with an error, and of the two errors one is an overflow and
the other does not occur. -/

theorem isDelimiter_iff {s : Slot} :
    b.isDelimiter s = true ↔ ∃ r, b.records[s]? = some r ∧ r.inst.isDelimiter = true := by
  unfold isDelimiter
  rw [Option.any_eq_true]

/-- With every slot issued and delimiters last the verdict is the order. The check that could still fail asks
whether the last record is a delimiter that was overtaken. -/
theorem Sound.verdict_eq_ok (h : Sound g b) (hlength : b.order.length = g.size)
    (hlast : DelimiterIsLast g b) : b.verdict = .ok b.order := by
  rcases h.verdict_eq hlength with ⟨⟨last, hback, hdelim, hne⟩, _⟩ | ⟨_, hok⟩
  · -- the last record stands in the last slot, which has issued last
    rw [Array.back?_eq_getElem?] at hback
    have hmem : b.records.size - 1 ∈ b.order := by
      rw [(h.order_perm hlength).mem_iff, List.mem_range, ← h.size_eq]
      exact (Array.getElem?_eq_some_iff.mp hback).1
    have hfinal := (hlast _ hmem (isDelimiter_iff.mpr ⟨last, hback, hdelim⟩)).1
    rw [h.positioned _ last hback] at hne
    exact absurd hfinal hne
  · exact hok

/-! The property of a board that the whole run keeps. -/

/-- Delimiters come last, and any costs that cover the delays of the block pay for all cycles. -/
structure OnTrack (g : Graph) (records : Array Record) (b : Board) : Prop where
  last : DelimiterIsLast g b
  paid : ∀ cost, CoversDelays g (latencyAt records) cost → WithinBudget cost b

theorem withinBudget_of_start {records : Array Record} (hb : Board.start g records = .ok b)
    (cost : Slot → Nat) : WithinBudget cost b := by
  obtain ⟨hnil, hzero⟩ := nothing_issued_of_start hb
  exact ⟨by omega, by simp [hnil]⟩

theorem onTrack_of_start {records : Array Record} (hb : Board.start g records = .ok b) :
    OnTrack g records b where
  last := by simp [DelimiterIsLast, (nothing_issued_of_start hb).1]
  paid cost _ := withinBudget_of_start hb cost

/-- Times do not change which slots hold delimiters. -/
theorem delimiter_last_of_sameBlock {records : Array Record} (hsame : SameBlock records b.records)
    (hdelim : ∀ (s : Nat) r, records[s]? = some r → r.inst.isDelimiter = true → s + 1 = g.size)
    (s : Nat) (hs : b.isDelimiter s = true) : s + 1 = g.size := by
  rw [isDelimiter_of_sameBlock (b := { records }) hsame] at hs
  obtain ⟨r, hr, hd⟩ := isDelimiter_iff.mp hs
  exact hdelim s r hr hd

/-- Nor do they change what covers the delays. -/
theorem coversDelays_of_sameBlock {records : Array Record} (hsame : SameBlock records b.records)
    {cost : Slot → Nat} (hcov : CoversDelays g (latencyAt records) cost) :
    CoversDelays g (latencyAt b.records) cost := by
  rw [latencyAt_of_sameBlock hsame]
  exact hcov

/-- What covers the delays of the block pays for every cycle that is offered. -/
theorem WithinBudget.keep {records : Array Record} {cost : Slot → Nat}
    (hcov : CoversDelays g (latencyAt records) cost) (hb : Sound g b)
    (hsame : SameBlock records b.records) (hw : WithinBudget cost b) {candidates : List Slot}
    (hoffer : b.Offer time candidates) (hi : Issued g b time (b.choose candidates) b') :
    WithinBudget cost b' := by
  have hcov' := coversDelays_of_sameBlock hsame hcov
  exact hw.step hb hcov' (hw.offer_time_le hb hcov' hoffer) (chosen_of_offer hb.positioned hoffer) hi

/-- **The step**, for both parts: `DelimiterIsLast.step` and `WithinBudget.keep`. -/
theorem OnTrack.step {records : Array Record} (hf : g.Forward)
    (hdelim : ∀ (s : Nat) r, records[s]? = some r → r.inst.isDelimiter = true → s + 1 = g.size)
    (hb : Sound g b) (hsame : SameBlock records b.records) (ht : OnTrack g records b)
    {candidates : List Slot} (hoffer : b.Offer time candidates)
    (hi : Issued g b time (b.choose candidates) b') : OnTrack g records b' where
  last := ht.last.step hb hf (delimiter_last_of_sameBlock hsame hdelim)
    (chosen_of_offer hb.positioned hoffer) hi
  paid cost hcov := (ht.paid cost hcov).keep hcov hb hsame hoffer hi

/-- A step that overflows exceeds every budget, for one that fits would have ruled it out. -/
theorem OnTrack.budget_exceeded {records : Array Record} (hb : Sound g b)
    (hsame : SameBlock records b.records) (ht : OnTrack g records b) {candidates : List Slot}
    (hoffer : b.Offer time candidates)
    (hover : Overflows g { b with time } (b.choose candidates)) {cost : Slot → Nat}
    (hcov : CoversDelays g (latencyAt records) cost) :
    maxCycle < totalCost cost (List.range g.size) := by
  refine Nat.lt_of_not_le fun hfits => ?_
  have hcov' := coversDelays_of_sameBlock hsame hcov
  have htime := (ht.paid cost hcov).offer_time_le hb hcov' hoffer
  exact (ht.paid cost hcov).not_overflows hb hcov' htime (chosen_of_offer hb.positioned hoffer) hfits hover

end Progress

/-- **List scheduling runs to its end.** Over forward edges, and with no delimiter but in the last slot,
it returns an order in which a delimiter is last, or some cycle count overflows. The latter takes a block
whose delays no fitting budget covers. -/
theorem listSchedule_completes {g : Graph} {records : Array Record} (hg : g.Inverted)
    (hf : g.Forward) (hsize : records.size = g.size) (hpos : Positioned records)
    (hdelim : ∀ (s : Nat) r, records[s]? = some r → r.inst.isDelimiter = true → s + 1 = g.size) :
    (∃ final order, listSchedule g records = (final, .ok order) ∧
      ∀ (s : Nat) r, records[s]? = some r → r.inst.isDelimiter = true → order.getLast? = some s) ∨
    ((listSchedule g records).2 = .error (.fault .overflow) ∧
      ∀ cost, CoversDelays g (latencyAt records) cost → maxCycle < totalCost cost (List.range g.size)) := by
  obtain ⟨b, hsound, hsame, htrack, hend⟩ := listSchedule_spec hg hsize hpos (P := OnTrack g records)
    (fun _ => onTrack_of_start)
    (fun b b' time candidates hb hbsame ht hoffer hi => ht.step hf hdelim hb hbsame hoffer hi)
  cases hend with
  | complete hlength hresult =>
    refine Or.inl ⟨b.records, b.order, ?_, ?_⟩
    · rw [hresult, hsound.verdict_eq_ok hlength htrack.last]
    · intro s r hr hd
      have hs : s < g.size := by
        rw [← hsize]
        exact (Array.getElem?_eq_some_iff.mp hr).1
      have hmem : s ∈ b.order := (hsound.order_perm hlength).mem_iff.mpr (List.mem_range.mpr hs)
      refine (htrack.last s hmem ?_).1
      rw [isDelimiter_of_sameBlock (b := { records }) hsame]
      exact isDelimiter_iff.mpr ⟨r, hr, hd⟩
  | stuck e hlength hstep hresult =>
    -- a cycle fails by an overflow, or because nothing is ready
    rcases step_eq_error hg hsound.positioned (Nat.le_of_eq hsound.size_eq.symm) hstep with
      ⟨rfl, time, candidates, hoffer, hover⟩ | ⟨hnil, _⟩
    · refine Or.inr ⟨by rw [hresult], fun cost hcov => ?_⟩
      exact htrack.budget_exceeded hsound hsame hoffer hover hcov
    · exact absurd hnil (hsound.ready_ne_nil hf hlength)

end Board

end DualIssue
