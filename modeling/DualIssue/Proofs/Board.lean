import DualIssue.Proofs.Choice
import Mathlib.Data.List.Perm.Subperm

/-!
# The invariant of list scheduling

Between two cycles the board is `Sound`: a slot is ready exactly if its predecessors have issued and it
has not; ready times are the latest arrivals; whatever has issued did so in an earlier cycle, not before
its ready time, after all of its predecessors; and the order lists slots by issue time.

* **`Sound.start`**: the board starts soundly.
* **`Sound.step`**: a cycle keeps it sound. This is the step lemma; everything else about a whole run
  follows by **`listSchedule_spec`**, which runs it to the end together with any further property that
  cycles keep. `lastBoard_spec` says the same of the **`lastBoard`** itself.
-/

namespace DualIssue

open DualIssue.Graph

namespace Board

/-- What holds of the board between two cycles. -/
structure Sound (g : Graph) (b : Board) : Prop where
  size_eq : b.records.size = g.size
  positioned : Positioned b.records
  order_nodup : b.order.Nodup
  order_lt : ∀ s ∈ b.order, s < g.size
  ready_sorted : b.ready.Pairwise (· < ·)
  mem_ready_iff : ∀ s, s ∈ b.ready ↔ s < g.size ∧ b.Eligible g s
  issueTime_eq : ∀ s ∈ b.order, b.issueTime s = some (b.cycleOf s)
  past : ∀ s ∈ b.order, b.cycleOf s < b.time
  waited : ∀ s ∈ b.order, b.readyTime s ≤ b.cycleOf s
  later : ∀ s ∈ b.order, ∀ p, g.Depends p s → p ∈ b.order ∧ b.cycleOf p < b.cycleOf s
  readyTime_eq : ∀ s, s ∈ b.order ∨ s ∈ b.ready →
    b.readyTime s = latest ((g.predsOf s).map b.arrival)
  order_sorted : b.order.Pairwise fun s s' => b.cycleOf s ≤ b.cycleOf s'

/-- No more slots have issued than there are: the order has no repetition and its slots are in range. -/
theorem Sound.length_order_le {g : Graph} {b : Board} (h : Sound g b) : b.order.length ≤ g.size := by
  have hsub : b.order ⊆ List.range g.size := fun s hs => List.mem_range.mpr (h.order_lt s hs)
  have := (List.subperm_of_subset h.order_nodup hsub).length_le
  rwa [List.length_range] at this

/-- If as many slots have issued as there are, each has issued exactly once. A list without repetition that is a
part of a list of the same length is a permutation of it. -/
theorem Sound.order_perm {g : Graph} {b : Board} (h : Sound g b) (hlength : b.order.length = g.size) :
    b.order.Perm (List.range g.size) := by
  have hsub : b.order ⊆ List.range g.size := fun s hs => List.mem_range.mpr (h.order_lt s hs)
  refine (List.subperm_of_subset h.order_nodup hsub).perm_of_length_le (Nat.le_of_eq ?_)
  rw [List.length_range, hlength]

/-! ## Records keep what they were given

A cycle writes ready times and issue times and leaves the rest of a record as it is. `SameBlock` compares two
arrays of records up to these two fields. It is transitive, so that it goes through a run, and every function of
a record that reads neither field has the same value on both sides (`SameBlock.map_eq`). -/

/-- Two arrays of records differ only in what scheduling writes. -/
def SameBlock (records records' : Array Record) : Prop :=
  ∀ i : Nat, records'[i]?.map Record.given = records[i]?.map Record.given

theorem SameBlock.trans {r₁ r₂ r₃ : Array Record} (h₁ : SameBlock r₁ r₂) (h₂ : SameBlock r₂ r₃) :
    SameBlock r₁ r₃ := fun i => (h₂ i).trans (h₁ i)

/-- A record of the second array has a counterpart in the first, with the same given fields. -/
theorem SameBlock.exists_record {records records' : Array Record} (h : SameBlock records records')
    {i : Nat} {r' : Record} (hr' : records'[i]? = some r') :
    ∃ r, records[i]? = some r ∧ r'.given = r.given := by
  have hi := h i
  rw [hr', Option.map_some] at hi
  obtain ⟨r, hr, hgiven⟩ := Option.map_eq_some_iff.mp hi.symm
  exact ⟨r, hr, hgiven.symm⟩

/-- The slot of a record is one of the given fields, so records stay in their positions. -/
theorem SameBlock.positioned {records records' : Array Record} (h : SameBlock records records')
    (hpos : Positioned records) : Positioned records' := by
  intro i r' hr'
  obtain ⟨r, hr, hgiven⟩ := h.exists_record hr'
  show r'.given.slot = i
  rw [hgiven]
  exact hpos i r hr

/-- A function of a record that does not depend on what scheduling writes is the same before and after. The
function factors through `Record.given`, where the two arrays agree. -/
theorem SameBlock.map_eq {α : Type} {records records' : Array Record} (h : SameBlock records records')
    (f : Record → α) (hf : ∀ r, f r.given = f r) (i : Nat) : records'[i]?.map f = records[i]?.map f := by
  have hi := congrArg (Option.map f) (h i)
  rw [Option.map_map, Option.map_map] at hi
  have hcomp : f ∘ Record.given = f := funext hf
  rwa [hcomp] at hi

/-- Scheduling does not turn an instruction into a delimiter, nor a delimiter into something else. -/
theorem isDelimiter_of_sameBlock {b b' : Board} (h : SameBlock b.records b'.records) (s : Slot) :
    b'.isDelimiter s = b.isDelimiter s := by
  have hs := congrArg (Option.any id) (h.map_eq (fun r => r.inst.isDelimiter) (fun _ => rfl) s)
  rw [Option.any_map, Option.any_map] at hs
  exact hs

/-! ## The step

A cycle is described by two facts: `Chosen`, what was picked, and `Issued`, how the board after it differs from
the board before. All lemmas of this section are derived from these, field by field of `Sound`, and never open
the code. Time and again a slot of the new order is either old, and then nothing about it has changed, or it is
one of those chosen now. -/

section Step

variable {g : Graph} {b b' : Board} {time : Nat} {slots : List Slot}

theorem Issued.cycleOf_new (hi : Issued g b time slots b') {s : Slot} (hs : s ∈ slots)
    (hlt : s < b.records.size) : b'.cycleOf s = time := by
  unfold cycleOf
  rw [hi.issueTime_eq s hlt, if_pos hs]
  rfl

theorem Issued.cycleOf_old (hi : Issued g b time slots b') {s : Slot} (hs : s ∉ slots)
    (hlt : s < b.records.size) : b'.cycleOf s = b.cycleOf s := by
  unfold cycleOf
  rw [hi.issueTime_eq s hlt, if_neg hs]

/-- A predecessor that issued earlier still arrives when it did. Its arrival depends on its issue time, which
this cycle does not write, and on its latency, which is given. -/
theorem Issued.arrival_eq (hi : Issued g b time slots b') {d : Dependency} (hd : d.slot ∉ slots)
    (hlt : d.slot < b.records.size) : b'.arrival d = b.arrival d := by
  apply arrival_congr
  have hlat := SameBlock.map_eq (hi.given_eq) (fun r => r.latency) (fun _ => rfl) d.slot
  have htime := hi.issueTime_eq d.slot hlt
  rw [if_neg hd] at htime
  have hlt' : d.slot < b'.records.size := by
    rw [hi.size_eq]
    exact hlt
  unfold issueTime at htime
  rw [Array.getElem?_eq_getElem hlt, Array.getElem?_eq_getElem hlt'] at htime hlat ⊢
  simp only [Option.bind_some, Option.map_some, Option.some.injEq] at htime hlat ⊢
  rw [htime, hlat]

theorem Issued.mem_order_iff (hi : Issued g b time slots b') {s : Slot} :
    s ∈ b'.order ↔ s ∈ b.order ∨ s ∈ slots := by
  rw [hi.order_eq, List.mem_append]

/-- Only slots that wake up get a ready time, and these were neither ready nor had they issued. -/
theorem Issued.readyTime_kept (hi : Issued g b time slots b') {s : Slot}
    (hs : s ∈ b.order ∨ s ∈ b.ready) :
    b'.readyTime s = b.readyTime s := by
  refine hi.readyTime_of_not_wakes s ?_
  rintro ⟨_, hord, _, hready, _⟩
  exact hs.elim hord hready

/-- After the cycle ready means again: all predecessors have issued and the slot has not. From left to right a
slot was ready before or wakes up now. From right to left the question is whether its predecessors had all
issued before the cycle: if so it was ready, otherwise the last of them issues now and wakes it. -/
theorem Sound.mem_ready_after (h : Sound g b) (hi : Issued g b time slots b') (s : Slot) :
    s ∈ b'.ready ↔ s < g.size ∧ b'.Eligible g s := by
  rw [hi.mem_ready_iff]
  constructor
  · rintro (⟨hs, hnot⟩ | ⟨⟨p, hp, hdep⟩, hord, hnot, _, hall⟩)
    · obtain ⟨hlt, hord, hall⟩ := (h.mem_ready_iff s).mp hs
      refine ⟨hlt, fun hs' => (hi.mem_order_iff.mp hs').elim hord hnot, ?_⟩
      exact fun d hd => hi.mem_order_iff.mpr (Or.inl (hall d hd))
    · refine ⟨hdep.target_lt, fun hs' => (hi.mem_order_iff.mp hs').elim hord hnot, ?_⟩
      exact fun d hd => hi.mem_order_iff.mpr (hall d hd)
  · rintro ⟨hlt, hnot, hall⟩
    have hord : s ∉ b.order := fun hs => hnot (hi.mem_order_iff.mpr (Or.inl hs))
    have hslots : s ∉ slots := fun hs => hnot (hi.mem_order_iff.mpr (Or.inr hs))
    by_cases hearly : ∀ d ∈ g.predsOf s, d.slot ∈ b.order
    · exact Or.inl ⟨(h.mem_ready_iff s).mpr ⟨hlt, hord, hearly⟩, hslots⟩
    · -- some predecessor issues in this very cycle
      have hdep : ∃ p ∈ slots, g.Depends p s := by
        obtain ⟨d, hd⟩ := Classical.not_forall.mp hearly
        obtain ⟨hd, hdord⟩ := Classical.not_imp.mp hd
        rcases hi.mem_order_iff.mp (hall d hd) with hin | hin
        · exact absurd hin hdord
        · exact ⟨d.slot, hin, d, hd, rfl⟩
      have hready : s ∉ b.ready := fun hs => hearly ((h.mem_ready_iff s).mp hs).2.2
      exact Or.inr ⟨hdep, hord, hslots, hready, fun d hd => hi.mem_order_iff.mp (hall d hd)⟩

section Chosen

variable (h : Sound g b) (hc : b.Chosen time slots)
include h hc

/-- What is chosen was ready, so its predecessors have issued and it has not. -/
theorem Sound.chosen_eligible {s : Slot} (hs : s ∈ slots) : s < g.size ∧ b.Eligible g s :=
  (h.mem_ready_iff s).mp (hc.mem_ready s hs)

theorem Sound.not_chosen {s : Slot} (hs : s ∈ b.order) : s ∉ slots :=
  fun hmem => (h.chosen_eligible hc hmem).2.1 hs

end Chosen

section Cycle

variable (h : Sound g b) (hc : b.Chosen time slots) (hi : Issued g b time slots b')
include h hc hi

theorem Sound.lt_of_mem_after {s : Slot} (hs : s ∈ b'.order) : s < g.size := by
  rcases hi.mem_order_iff.mp hs with hs | hs
  · exact h.order_lt s hs
  · exact (h.chosen_eligible hc hs).1

/-- `Issued.cycleOf_new` with its bound discharged: what is chosen is in range. -/
theorem Sound.cycleOf_chosen {s : Slot} (hs : s ∈ slots) : b'.cycleOf s = time := by
  refine hi.cycleOf_new hs ?_
  rw [h.size_eq]
  exact (h.chosen_eligible hc hs).1

/-- `Issued.cycleOf_old` with its side conditions discharged: what has issued is in range and is not chosen
again. -/
theorem Sound.cycleOf_kept {s : Slot} (hs : s ∈ b.order) : b'.cycleOf s = b.cycleOf s := by
  refine hi.cycleOf_old (h.not_chosen hc hs) ?_
  rw [h.size_eq]
  exact h.order_lt s hs

/-- The predecessors of what was ready or had issued have all issued before, so nothing about their
arrivals changes. -/
theorem Sound.arrivals_kept {s : Slot} (hs : s ∈ b.order ∨ s ∈ b.ready) :
    (g.predsOf s).map b'.arrival = (g.predsOf s).map b.arrival := by
  refine List.map_congr_left fun d hd => ?_
  have hpred : d.slot ∈ b.order := by
    rcases hs with hs | hs
    · exact (h.later s hs d.slot ⟨d, hd, rfl⟩).1
    · exact ((h.mem_ready_iff s).mp hs).2.2 d hd
  refine hi.arrival_eq (h.not_chosen hc hpred) ?_
  rw [h.size_eq]
  exact h.order_lt _ hpred

/-- Ready times are the latest arrivals also after the cycle. For a slot that had issued or was ready before,
both sides are unchanged (`arrivals_kept`); for one that wakes up it is what was written. -/
theorem Sound.readyTime_after {s : Slot} (hs : s ∈ b'.order ∨ s ∈ b'.ready) :
    b'.readyTime s = latest ((g.predsOf s).map b'.arrival) := by
  -- what is chosen now was ready before, so there are only two cases
  have hcases : (s ∈ b.order ∨ s ∈ b.ready) ∨ b.Wakes g slots s := by
    rcases hs with hs | hs
    · rcases hi.mem_order_iff.mp hs with hs | hs
      · exact Or.inl (Or.inl hs)
      · exact Or.inl (Or.inr (hc.mem_ready s hs))
    · rcases (hi.mem_ready_iff s).mp hs with hs | hs
      · exact Or.inl (Or.inr hs.1)
      · exact Or.inr hs
  rcases hcases with hold | hwakes
  · rw [hi.readyTime_kept hold, h.arrivals_kept hc hi hold]
    exact h.readyTime_eq s hold
  · exact hi.readyTime_of_wakes s hwakes

/-- The order stays sorted by issue time: the old part by assumption, the chosen slots because they share a
cycle, and the first before the second because what has issued is past. -/
theorem Sound.order_sorted_after : b'.order.Pairwise fun s s' => b'.cycleOf s ≤ b'.cycleOf s' := by
  rw [hi.order_eq]
  refine List.pairwise_append.mpr ⟨?_, ?_, ?_⟩
  · refine h.order_sorted.imp_of_mem ?_
    intro s s' hs hs' hle
    rw [h.cycleOf_kept hc hi hs, h.cycleOf_kept hc hi hs']
    exact hle
  · refine List.pairwise_of_forall_mem_list ?_
    intro s hs s' hs'
    refine Nat.le_of_eq ?_
    rw [h.cycleOf_chosen hc hi hs, h.cycleOf_chosen hc hi hs']
  · intro s hs s' hs'
    rw [h.cycleOf_kept hc hi hs, h.cycleOf_chosen hc hi hs']
    exact Nat.le_of_lt (Nat.lt_of_lt_of_le (h.past s hs) hc.time_le)

/-- **A cycle keeps the board sound.** One case for each field of `Sound`, most of them the lemmas above. Those
written out here ask for a slot of the new order whether it is old or chosen. -/
theorem Sound.step : Sound g b' := by
  constructor
  case size_eq => rw [hi.size_eq, h.size_eq]
  case positioned => exact SameBlock.positioned hi.given_eq h.positioned
  case order_nodup =>
    rw [hi.order_eq]
    exact List.nodup_append.mpr ⟨h.order_nodup, hc.nodup, fun s hs s' hs' heq =>
      h.not_chosen hc hs (heq ▸ hs')⟩
  case order_lt => exact fun s hs => h.lt_of_mem_after hc hi hs
  case ready_sorted => exact hi.ready_sorted h.ready_sorted
  case mem_ready_iff => exact h.mem_ready_after hi
  case issueTime_eq =>
    intro s hs
    have hlt : s < b.records.size := by
      rw [h.size_eq]
      exact h.lt_of_mem_after hc hi hs
    rcases hi.mem_order_iff.mp hs with hs | hs
    · rw [h.cycleOf_kept hc hi hs, hi.issueTime_eq s hlt, if_neg (h.not_chosen hc hs),
        h.issueTime_eq s hs]
    · rw [h.cycleOf_chosen hc hi hs, hi.issueTime_eq s hlt, if_pos hs]
  case past =>
    intro s hs
    rw [hi.time_eq]
    rcases hi.mem_order_iff.mp hs with hs | hs
    · rw [h.cycleOf_kept hc hi hs]
      have hpast := h.past s hs
      have htime := hc.time_le
      omega
    · rw [h.cycleOf_chosen hc hi hs]
      omega
  case waited =>
    intro s hs
    rcases hi.mem_order_iff.mp hs with hs | hs
    · rw [h.cycleOf_kept hc hi hs, hi.readyTime_kept (Or.inl hs)]
      exact h.waited s hs
    · rw [h.cycleOf_chosen hc hi hs, hi.readyTime_kept (Or.inr (hc.mem_ready s hs))]
      exact hc.due s hs
  case later =>
    intro s hs p hdep
    rcases hi.mem_order_iff.mp hs with hs | hs
    · obtain ⟨hp, hlt⟩ := h.later s hs p hdep
      refine ⟨hi.mem_order_iff.mpr (Or.inl hp), ?_⟩
      rw [h.cycleOf_kept hc hi hp, h.cycleOf_kept hc hi hs]
      exact hlt
    · -- a slot that issues now was ready, so its predecessors issued in earlier cycles
      obtain ⟨d, hd, rfl⟩ := hdep
      have hp : d.slot ∈ b.order := (h.chosen_eligible hc hs).2.2 d hd
      refine ⟨hi.mem_order_iff.mpr (Or.inl hp), ?_⟩
      rw [h.cycleOf_kept hc hi hp, h.cycleOf_chosen hc hi hs]
      exact Nat.lt_of_lt_of_le (h.past _ hp) hc.time_le
  case readyTime_eq => exact fun s hs => h.readyTime_after hc hi hs
  case order_sorted => exact h.order_sorted_after hc hi

end Cycle

end Step

/-! ## The start

A board starts with the slots that have no predecessors. Nothing has issued, so most fields of `Sound` are empty
statements; what is left is that a slot without predecessors is eligible and that its ready time of 0 is the
latest of no arrivals. -/

theorem nothing_issued_of_start {g : Graph} {records : Array Record} {b : Board}
    (hb : Board.start g records = .ok b) : b.order = [] ∧ b.time = 0 := by
  unfold Board.start at hb
  split at hb
  · cases hb
    exact ⟨rfl, rfl⟩
  · cases hb

/-- **The board starts soundly.** Nothing has issued, and the slots without predecessors are ready. -/
theorem Sound.start {g : Graph} {records : Array Record} (hsize : records.size = g.size)
    (hpos : Positioned records) :
    ∃ b, Board.start g records = .ok b ∧ Sound g b ∧ SameBlock records b.records := by
  -- the only field that is written is the ready time
  have hsame : SameBlock records (records.mapIdx fun slot r =>
      if (g.predsOf slot).isEmpty then { r with readyTime := 0 } else r) := by
    intro i
    rw [Array.getElem?_mapIdx, Option.map_map]
    congr 1
    funext r
    show (if (g.predsOf i).isEmpty then _ else _ : Record).given = _
    split <;> rfl
  refine ⟨_, by rw [Board.start, if_pos (Nat.le_of_eq hsize)], ?_, hsame⟩
  constructor
  case size_eq => rw [Array.size_mapIdx, hsize]
  case positioned => exact hsame.positioned hpos
  case order_nodup => exact List.nodup_nil
  case order_lt => intro s hs; cases hs
  case ready_sorted => exact List.pairwise_lt_range.filter _
  case mem_ready_iff =>
    intro s
    rw [List.mem_filter, List.mem_range, hsize]
    constructor
    · rintro ⟨hlt, hnil⟩
      refine ⟨hlt, List.not_mem_nil, fun d hd => ?_⟩
      rw [List.isEmpty_iff.mp hnil] at hd
      cases hd
    · rintro ⟨hlt, _, hall⟩
      refine ⟨hlt, List.isEmpty_iff.mpr (List.eq_nil_iff_forall_not_mem.mpr ?_)⟩
      intro d hd
      cases hall d hd
  case issueTime_eq => intro s hs; cases hs
  case past => intro s hs; cases hs
  case waited => intro s hs; cases hs
  case later => intro s hs; cases hs
  case readyTime_eq =>
    rintro s (hs | hs)
    · cases hs
    · obtain ⟨hlt, hnil⟩ := List.mem_filter.mp hs
      have hlt : s < records.size := List.mem_range.mp hlt
      rw [List.isEmpty_iff.mp hnil]
      show ((records.mapIdx _)[s]?.map _).getD 0 = 0
      rw [Array.getElem?_mapIdx, Array.getElem?_eq_getElem hlt]
      simp [hnil]
  case order_sorted => exact List.Pairwise.nil

/-! ## The run

`Board.run` repeats the step up to a bound on its number. What a run keeps is shown for an arbitrary property,
first of the bare loop (`run_induction`) and then with soundness carried along (`lastBoard_spec`), so that later
modules add an invariant of their own without another induction over cycles. -/

/-- What a run keeps and how it ends, for a property that steps keep while they lengthen the order.
Induction on the bound, which is large enough if it makes up for the slots that have not issued. -/
theorem run_induction {g : Graph} {P : Board → Prop}
    (hstep : ∀ b b', P b → b.step g = .ok b' →
      P b' ∧ b.order.length < b'.order.length ∧ b'.records.size = b.records.size)
    (fuel : Nat) (b : Board) (hb : P b) (hfuel : b.records.size ≤ b.order.length + fuel) :
    P (run g fuel b).1 ∧
      ((run g fuel b).2 = .ok () → (run g fuel b).1.records.size ≤ (run g fuel b).1.order.length) ∧
      ∀ e, (run g fuel b).2 = .error e → (run g fuel b).1.order.length < (run g fuel b).1.records.size ∧
        (run g fuel b).1.step g = .error e := by
  induction fuel generalizing b with
  | zero => exact ⟨hb, fun _ => hfuel, fun e he => by cases he⟩
  | succ fuel ih =>
    unfold run
    by_cases hlt : b.order.length < b.records.size
    · rw [if_pos hlt]
      cases hs : b.step g with
      | ok next =>
        obtain ⟨hP, hgrow, hsize⟩ := hstep b next hb hs
        -- one cycle less is allowed, and at least one slot more has issued
        exact ih next hP (by omega)
      | error e =>
        refine ⟨hb, ?_, ?_⟩
        · intro h
          cases h
        · intro e' he
          cases he
          exact ⟨hlt, hs⟩
    · rw [if_neg hlt]
      refine ⟨hb, fun _ => Nat.le_of_not_lt hlt, ?_⟩
      intro e he
      cases he

/-- How list scheduling ends: with every slot issued, or in a failing step. -/
inductive Ends (g : Graph) (records : Array Record) (b : Board) : Prop where
  | complete (hlength : b.order.length = g.size)
      (hresult : listSchedule g records = (b.records, b.verdict))
  | stuck (e : ScheduleError) (hlength : b.order.length < g.size) (hstep : b.step g = .error e)
      (hresult : listSchedule g records = (b.records, .error e))

/-- The board on which list scheduling stops. -/
def lastBoard (g : Graph) (records : Array Record) : Board :=
  match Board.start g records with
  | .ok b => (b.run g records.size).1
  | .error _ => { records }

section Run

variable {g : Graph} {records : Array Record} {P : Board → Prop}

/-- A step of the code is a cycle of the invariant. That the order grows is what bounds the number of
steps. -/
theorem Sound.of_step (hg : g.Inverted)
    (hstep : ∀ b b' time candidates, Sound g b → SameBlock records b.records → P b →
      b.Offer time candidates → Issued g b time (b.choose candidates) b' → P b')
    (b b' : Board) (hb : Sound g b ∧ SameBlock records b.records ∧ P b) (hok : b.step g = .ok b') :
    (Sound g b' ∧ SameBlock records b'.records ∧ P b') ∧
      b.order.length < b'.order.length ∧ b'.records.size = b.records.size := by
  obtain ⟨hb, hbsame, hP⟩ := hb
  obtain ⟨time, candidates, hoffer, hissue⟩ := step_eq_ok hok
  -- from the code to the two facts that describe a cycle
  have hchosen := chosen_of_offer hb.positioned hoffer
  have hissued := issued_of_issueAll hg (Nat.le_of_eq hb.size_eq.symm) hissue
  refine ⟨⟨hb.step hchosen hissued, hbsame.trans hissued.given_eq,
    hstep b b' time candidates hb hbsame hP hoffer hissued⟩, ?_, hissued.size_eq⟩
  rw [hissued.order_eq, List.length_append]
  have := List.length_pos_iff.mpr hchosen.ne_nil
  omega

/-- **List scheduling, run to its end.** The last board is sound, its records are the given ones with times
written in, and it has any further property that holds at the start and that cycles keep. The bound of the run
is the number of records, which is enough for the empty order that it starts with (`hfuel`). -/
theorem lastBoard_spec (hg : g.Inverted) (hsize : records.size = g.size) (hpos : Positioned records)
    (hstart : ∀ b, Board.start g records = .ok b → P b)
    (hstep : ∀ b b' time candidates, Sound g b → SameBlock records b.records → P b →
      b.Offer time candidates → Issued g b time (b.choose candidates) b' → P b') :
    Sound g (lastBoard g records) ∧ SameBlock records (lastBoard g records).records ∧
      P (lastBoard g records) ∧ Ends g records (lastBoard g records) := by
  obtain ⟨b₀, hb₀, hsound, hsame⟩ := Sound.start hsize hpos
  have hnil := (nothing_issued_of_start hb₀).1
  have hfuel : b₀.records.size ≤ b₀.order.length + records.size := by
    rw [hnil, hsound.size_eq, hsize]
    simp
  obtain ⟨⟨hs, hsame', hP⟩, hok, herr⟩ :=
    run_induction (Sound.of_step hg hstep) records.size b₀ ⟨hsound, hsame, hstart b₀ hb₀⟩ hfuel
  have hlast : lastBoard g records = (run g records.size b₀).1 := by
    unfold lastBoard
    rw [hb₀]
  rw [hlast]
  refine ⟨hs, hsame', hP, ?_⟩
  have hle := hs.length_order_le
  -- the two ways for a run to stop are the two ways for the schedule to end
  cases hrun : run g records.size b₀ with
  | mk b result =>
    rw [hrun] at hs hok herr hle
    cases result with
    | ok u =>
      refine Ends.complete ?_ ?_
      · have := hok rfl
        rw [hs.size_eq] at this
        omega
      · unfold listSchedule
        rw [hb₀]
        dsimp only
        rw [hrun]
    | error e =>
      obtain ⟨hlt, hstuck⟩ := herr e rfl
      rw [hs.size_eq] at hlt
      refine Ends.stuck e hlt hstuck ?_
      unfold listSchedule
      rw [hb₀]
      dsimp only
      rw [hrun]

/-- The same for some board, where it does not matter that it is the last one. -/
theorem listSchedule_spec (hg : g.Inverted) (hsize : records.size = g.size) (hpos : Positioned records)
    (hstart : ∀ b, Board.start g records = .ok b → P b)
    (hstep : ∀ b b' time candidates, Sound g b → SameBlock records b.records → P b →
      b.Offer time candidates → Issued g b time (b.choose candidates) b' → P b') :
    ∃ b, Sound g b ∧ SameBlock records b.records ∧ P b ∧ Ends g records b :=
  ⟨lastBoard g records, lastBoard_spec hg hsize hpos hstart hstep⟩

end Run

/-! ## The verdict

A run that ends with every slot issued is checked once more. Of the two checks the first, on the number of
slots, is then void; the second compares the last slot of the order with the last record if that is a delimiter.
It can fail only if the delimiter was overtaken, and whether this is so can be said about the records that were
given. -/

/-- The block ends with a delimiter, and another slot has issued after it. -/
def DelimiterOvertaken (records : Array Record) (order : List Slot) : Prop :=
  ∃ last, records.back? = some last ∧ last.inst.isDelimiter = true ∧
    order.getLast? ≠ some last.slot

/-- Whether a delimiter was overtaken does not depend on what scheduling writes. -/
theorem delimiterOvertaken_of_sameBlock {records records' : Array Record}
    (hsame : SameBlock records records') (hsize : records'.size = records.size) {order : List Slot} :
    DelimiterOvertaken records' order ↔ DelimiterOvertaken records order := by
  -- the verdict looks at the last record's instruction and slot, which nobody writes
  have hback : records'.back?.map (fun r => (r.inst, r.slot)) =
      records.back?.map (fun r => (r.inst, r.slot)) := by
    rw [Array.back?_eq_getElem?, Array.back?_eq_getElem?, hsize]
    exact hsame.map_eq _ (fun _ => rfl) _
  have hiff : ∀ rs : Array Record, DelimiterOvertaken rs order ↔
      ∃ key, rs.back?.map (fun r => (r.inst, r.slot)) = some key ∧ key.1.isDelimiter = true ∧
        order.getLast? ≠ some key.2 := by
    intro rs
    constructor
    · rintro ⟨last, hlast, hdelim, hne⟩
      exact ⟨(last.inst, last.slot), by rw [hlast]; rfl, hdelim, hne⟩
    · rintro ⟨key, hkey, hdelim, hne⟩
      obtain ⟨last, hlast, rfl⟩ := Option.map_eq_some_iff.mp hkey
      exact ⟨last, hlast, hdelim, hne⟩
  rw [hiff, hiff, hback]

/-- With every slot issued the verdict is about the delimiter only. The slot that the error names is that of the
last record, which is in the last position because the records are in theirs. -/
theorem Sound.verdict_eq {g : Graph} {b : Board} (h : Sound g b)
    (hlength : b.order.length = g.size) :
    (DelimiterOvertaken b.records b.order ∧ b.verdict = .error (.delimiterNotLast (g.size - 1))) ∨
      (¬ DelimiterOvertaken b.records b.order ∧ b.verdict = .ok b.order) := by
  have hsize : b.order.length = b.records.size := by rw [hlength, h.size_eq]
  unfold verdict
  rw [if_neg fun hne => hne hsize]
  split
  · rename_i last issued hlast hissued
    have hslot : last.slot = g.size - 1 := by
      refine (h.positioned (b.records.size - 1) last ?_).trans (by rw [h.size_eq])
      rw [← Array.back?_eq_getElem?]
      exact hlast
    split
    · rename_i hover
      refine Or.inl ⟨⟨last, hlast, hover.1, ?_⟩, by rw [hslot]⟩
      rw [hissued]
      exact fun heq => hover.2 (Option.some.inj heq)
    · rename_i hnot
      refine Or.inr ⟨?_, rfl⟩
      rintro ⟨last', hlast', hdelim, hne⟩
      cases hlast.symm.trans hlast'
      refine hnot ⟨hdelim, fun heq => hne ?_⟩
      rw [hissued, heq]
  · rename_i hnone
    refine Or.inr ⟨?_, rfl⟩
    rintro ⟨last, hlast, _, _⟩
    -- a block with a last record is not empty, and then neither is the order
    have hpos : 0 < b.records.size := by
      rw [Array.back?_eq_getElem?] at hlast
      have := (Array.getElem?_eq_some_iff.mp hlast).1
      omega
    have hne : b.order ≠ [] := List.ne_nil_of_length_pos (by rw [hsize]; exact hpos)
    exact hnone last _ hlast (List.getLast?_eq_some_getLast hne)

end Board

end DualIssue
