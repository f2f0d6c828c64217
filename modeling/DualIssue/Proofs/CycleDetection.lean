import DualIssue.Proofs.IssueOrder
import DualIssue.Proofs.Progress
import Mathlib.Data.Fintype.EquivFin

/-!
# List scheduling detects cycles

Over an arbitrary inverted graph, with loops, parallel edges and cycles, list scheduling issues exactly
the slots that wait for no cycle. If all slots are such, each issues once and what is left to check is the
delimiter; otherwise the board runs dry.

* **`Blocked`**: a cycle leads to the slot, or goes through it.
* **`Sound.mem_order_iff_of_ready_nil`**: on a board that has run dry, issued means not blocked. One half
  is that a slot issues after whatever leads to it. The other is an induction along the edges, which is
  well-founded above slots that are not blocked.
* **`run_eq_of_le`**: the loop ends by itself, more cycles than records change nothing.
* **`Verdict`** and **`verdict_of_listSchedule`**: the three ways in which a call ends that does not overflow.
* **`listSchedule_detects_cycles`** reads them off.
-/

namespace DualIssue

open DualIssue.Graph

namespace Graph

/-! ## Blocked slots

A slot on a cycle can never issue, and neither can anything behind it. The complement of these slots is closed
under predecessors and has no cycle, so one can do induction along its edges. -/

/-- There is a directed cycle. A loop is one. -/
def Cyclic (g : Graph) : Prop := ∃ slot, g.OnCycle slot

/-- The slot is on a cycle, or a path leads to it from one. -/
def Blocked (g : Graph) (slot : Slot) : Prop := ∃ c, g.OnCycle c ∧ g.Reaches c slot

section Blocked

variable {g : Graph} {p s : Slot}

theorem OnCycle.blocked (h : g.OnCycle s) : g.Blocked s := ⟨s, h, Reaches.refl g s⟩

theorem Blocked.of_depends (h : g.Blocked p) (hdep : g.Depends p s) : g.Blocked s := by
  obtain ⟨c, hc, hreach⟩ := h
  exact ⟨c, hc, hreach.trans hdep.reaches⟩

/-- A slot on a cycle is the target of an edge, so it exists. -/
theorem OnCycle.lt_size (h : g.OnCycle s) : s < g.size := by
  obtain ⟨_, _, hdep⟩ := Relation.TransGen.tail'_iff.mp h
  exact hdep.target_lt

/-- **Induction along the edges**, for slots that are not blocked. On the finite type of slots the transitive
closure of the edges into such slots is irreflexive, because a path from a slot to itself would be a cycle;
hence it is well-founded. -/
theorem Inverted.induction_of_not_blocked (hg : g.Inverted) {P : Slot → Prop}
    (hstep : ∀ s, s < g.size → ¬ g.Blocked s → (∀ p, g.Depends p s → P p) → P s)
    (s : Slot) (hlt : s < g.size) (hs : ¬ g.Blocked s) : P s := by
  -- edges into slots that are not blocked: no such edge can be part of a cycle
  let r : Fin g.size → Fin g.size → Prop := fun a b => g.Depends a b ∧ ¬ g.Blocked b
  have hpath : ∀ a b, Relation.TransGen r a b → Relation.TransGen g.Depends a b ∧ ¬ g.Blocked b := by
    intro a b h
    induction h with
    | single h => exact ⟨.single h.1, h.2⟩
    | tail _ h ih => exact ⟨ih.1.tail h.1, h.2⟩
  have hirrefl : Std.Irrefl (Relation.TransGen r) :=
    ⟨fun a h => (hpath a a h).2 (OnCycle.blocked (hpath a a h).1)⟩
  have htrans : IsTrans (Fin g.size) (Relation.TransGen r) := ⟨fun _ _ _ => Relation.TransGen.trans⟩
  have hwf : WellFounded (Relation.TransGen r) := Finite.wellFounded_of_trans_of_irrefl _
  have hall : ∀ a : Fin g.size, ¬ g.Blocked a → P a := by
    intro a
    induction a using hwf.induction with
    | _ a ih =>
      intro ha
      refine hstep a a.isLt ha fun p hdep => ?_
      exact ih ⟨p, hg.source_lt hdep⟩ (.single ⟨hdep, ha⟩) fun hp => ha (hp.of_depends hdep)
  exact hall ⟨s, hlt⟩ hs

end Blocked

end Graph

namespace Board

section Dry

variable {g : Graph} {b : Board}

/-- What has issued waits for no cycle: along a cycle issue times would grow without end. -/
theorem Sound.not_blocked (h : Sound g b) {s : Slot} (hs : s ∈ b.order) : ¬ g.Blocked s := by
  rintro ⟨c, hcycle, hreach⟩
  have hc : c ∈ b.order := by
    rcases Relation.reflTransGen_iff_eq_or_transGen.mp hreach with heq | hpath
    · rwa [heq] at hs
    · exact (h.cycleOf_lt_of_path hpath hs).1
  exact Nat.lt_irrefl _ (h.cycleOf_lt_of_path hcycle hc).2

/-- A slot that has not issued and is not ready waits for another such slot. If nothing is ready, a slot
above which there is no cycle cannot be waiting. -/
theorem Sound.mem_order_of_not_blocked (h : Sound g b) (hg : g.Inverted) (hnil : b.ready = [])
    {s : Slot} (hlt : s < g.size) (hs : ¬ g.Blocked s) : s ∈ b.order := by
  refine hg.induction_of_not_blocked (P := (· ∈ b.order)) ?_ s hlt hs
  intro s hlt _ hpreds
  refine Classical.byContradiction fun hnot => ?_
  have hready : s ∈ b.ready :=
    (h.mem_ready_iff s).mpr ⟨hlt, hnot, fun d hd => hpreds d.slot ⟨d, hd, rfl⟩⟩
  rw [hnil] at hready
  cases hready

/-- **On a board that has run dry, issued means not blocked.** -/
theorem Sound.mem_order_iff_of_ready_nil (h : Sound g b) (hg : g.Inverted) (hnil : b.ready = [])
    {s : Slot} (hlt : s < g.size) : s ∈ b.order ↔ ¬ g.Blocked s :=
  ⟨h.not_blocked, h.mem_order_of_not_blocked hg hnil hlt⟩

/-- If every slot has issued there is no cycle, since a slot on it would not have. -/
theorem Sound.not_cyclic (h : Sound g b) (hlength : b.order.length = g.size) : ¬ g.Cyclic := by
  rintro ⟨c, hc⟩
  have hmem : c ∈ b.order := (h.order_perm hlength).mem_iff.mpr (List.mem_range.mpr hc.lt_size)
  exact h.not_blocked hmem hc.blocked

/-- If nothing is ready and something has not issued, there is a cycle: otherwise no slot is blocked and all
have issued. -/
theorem Sound.cyclic_of_ready_nil (h : Sound g b) (hg : g.Inverted) (hnil : b.ready = [])
    (hlength : b.order.length < g.size) : g.Cyclic := by
  refine Classical.byContradiction fun hacyclic => ?_
  have hall : ∀ u : Nat, u < g.size → u ∈ b.order := by
    intro u hu
    refine h.mem_order_of_not_blocked hg hnil hu ?_
    rintro ⟨c, hc, _⟩
    exact hacyclic ⟨c, hc⟩
  have := h.length_eq_of_forall_mem hall
  omega

end Dry

/-! ## Nothing but issuing writes issue times

The records at the end show which slots have issued, provided that none had an issue time to begin with. This is
a further property that cycles keep, to be carried through the run along with soundness. -/

/-- Slots that have not issued have no issue time. -/
def OnlyIssuedTimed (b : Board) : Prop := ∀ s, s ∉ b.order → b.issueTime s = none

/-- The start writes ready times only, so fresh records stay without issue times. -/
theorem onlyIssuedTimed_of_start {g : Graph} {records : Array Record} {b : Board}
    (hfresh : ∀ r ∈ records, r.issueTime = none)
    (hb : Board.start g records = .ok b) : b.OnlyIssuedTimed := by
  unfold Board.start at hb
  split at hb
  · cases hb
    intro s _
    show (records.mapIdx _)[s]?.bind _ = none
    rw [Array.getElem?_mapIdx]
    cases hr : records[s]? with
    | none => rfl
    | some r =>
      show Record.issueTime (if (g.predsOf s).isEmpty then _ else _) = none
      split <;> exact hfresh r (Array.mem_of_getElem? hr)
  · cases hb

/-- A cycle writes the issue times of the slots that it appends to the order. -/
theorem OnlyIssuedTimed.step {g : Graph} {b b' : Board} {time : Nat} {slots : List Slot}
    (h : b.OnlyIssuedTimed) (hi : Issued g b time slots b') : b'.OnlyIssuedTimed := by
  intro s hs
  rw [hi.mem_order_iff, not_or] at hs
  by_cases hlt : s < b.records.size
  · rw [hi.issueTime_eq s hlt, if_neg hs.2]
    exact h s hs.1
  · have hout : ¬ s < b'.records.size := by rwa [hi.size_eq]
    simp [issueTime, hout]

/-- At any time between cycles, the records with an issue time are those of the order. -/
theorem Sound.issueTime_ne_none_iff {g : Graph} {b : Board} (h : Sound g b) (ht : b.OnlyIssuedTimed)
    {s : Nat} {r : Record} (hr : b.records[s]? = some r) : r.issueTime ≠ none ↔ s ∈ b.order := by
  have heq : b.issueTime s = r.issueTime := by
    unfold issueTime
    rw [hr]
    rfl
  rw [← heq]
  constructor
  · intro hsome
    refine Classical.byContradiction fun hs => hsome (ht s hs)
  · intro hs
    rw [h.issueTime_eq s hs]
    exact Option.some_ne_none _

/-! ## The loop ends by itself

The loop of the code has a bound, and a bound might cut a run short. It does not: with a bound of as many cycles
as records, the run has stopped for a reason of its own, and a larger bound gives the same run. -/

/-- A run that has issued everything or failed goes on in the same way with a larger bound. Induction on the
smaller bound. -/
theorem run_add {g : Graph} {fuel : Nat} {b : Board}
    (hend : (run g fuel b).2 = .ok () →
      (run g fuel b).1.records.size ≤ (run g fuel b).1.order.length) (extra : Nat) :
    run g (fuel + extra) b = run g fuel b := by
  induction fuel generalizing b with
  | zero =>
    -- no cycle was left to run, so the order must be full already
    have hfull : ¬ b.order.length < b.records.size := Nat.not_lt.mpr (hend rfl)
    cases extra with
    | zero => rfl
    | succ extra =>
      simp only [run, if_neg hfull]
  | succ fuel ih =>
    rw [Nat.succ_add, run, run]
    rw [run] at hend
    split
    · rename_i hlt
      rw [if_pos hlt] at hend
      cases hs : b.step g with
      | ok next =>
        rw [hs] at hend
        exact ih hend
      | error e => rfl
    · rfl

/-- **The loop ends within as many cycles as there are records.** By `run_induction` a run with this bound ends
with a full order or in a failing step, which is what `run_add` asks for. -/
theorem run_eq_of_le {g : Graph} {records : Array Record} (hg : g.Inverted)
    (hsize : records.size = g.size) (hpos : Positioned records) {b : Board}
    (hb : Board.start g records = .ok b) {fuel : Nat} (hfuel : records.size ≤ fuel) :
    b.run g fuel = b.run g records.size := by
  obtain ⟨b₀, hb₀, hsound, hsame⟩ := Sound.start hsize hpos
  have hnil := (nothing_issued_of_start hb₀).1
  cases hb₀.symm.trans hb
  obtain ⟨_, hfull, _⟩ := run_induction
    (Sound.of_step (P := fun _ => True) hg fun _ _ _ _ _ _ _ _ _ => trivial) records.size b
    ⟨hsound, hsame, trivial⟩ (by rw [hnil, hsound.size_eq, hsize]; simp)
  obtain ⟨extra, rfl⟩ := Nat.exists_eq_add_of_le hfuel
  exact run_add hfull extra

/-! ## The verdict

A call ends with a full order, which is then checked, or on a board where nothing is ready, or by overflow. In
the first two cases the board has run dry, so that what has issued is what no cycle blocks. -/

/-- When every slot has issued nothing is ready any more. -/
theorem Sound.ready_eq_nil {g : Graph} {b : Board} (h : Sound g b) (hlength : b.order.length = g.size) :
    b.ready = [] := by
  rw [List.eq_nil_iff_forall_not_mem]
  intro s hs
  obtain ⟨hlt, hnot, _⟩ := (h.mem_ready_iff s).mp hs
  exact hnot ((h.order_perm hlength).mem_iff.mpr (List.mem_range.mpr hlt))

end Board

open DualIssue.Board

/-- How list scheduling ends if no count overflows. -/
inductive Verdict (g : Graph) (records : Array Record) : Except ScheduleError (List Slot) → Prop where
  | blocked (time : Nat) (hcyclic : g.Cyclic) : Verdict g records (.error (.noReadyInstruction time))
  | overtaken (hacyclic : ¬ g.Cyclic)
      (hperm : (lastBoard g records).order.Perm (List.range records.size))
      (hlast : DelimiterOvertaken records (lastBoard g records).order) :
      Verdict g records (.error (.delimiterNotLast (records.size - 1)))
  | scheduled (hacyclic : ¬ g.Cyclic)
      (hperm : (lastBoard g records).order.Perm (List.range records.size))
      (hlast : ¬ DelimiterOvertaken records (lastBoard g records).order) :
      Verdict g records (.ok (lastBoard g records).order)

/-- **The end of a call.** Whatever the verdict, the records that have an issue time are those that are not
blocked. From `lastBoard_spec` with `OnlyIssuedTimed` as the further property; the cases are those of `Ends`,
and a failing step that does not overflow has found nothing ready. -/
theorem verdict_of_listSchedule {g : Graph} {records final : Array Record}
    {result : Except ScheduleError (List Slot)} (hg : g.Inverted) (hsize : records.size = g.size)
    (hpos : Positioned records) (hfresh : ∀ r ∈ records, r.issueTime = none)
    (h : listSchedule g records = (final, result)) (hfits : result ≠ .error (.fault .overflow)) :
    Verdict g records result ∧
      ∀ (s : Nat) r, final[s]? = some r → (r.issueTime ≠ none ↔ ¬ g.Blocked s) := by
  obtain ⟨hsound, hsame, htimed, hend⟩ := lastBoard_spec hg hsize hpos (P := OnlyIssuedTimed)
    (fun b hb => onlyIssuedTimed_of_start hfresh hb) (fun _ _ _ _ _ _ ht _ hi => ht.step hi)
  -- both ends leave a board that has run dry
  have hissued : (lastBoard g records).ready = [] → ∀ (s : Nat) r,
      (lastBoard g records).records[s]? = some r → (r.issueTime ≠ none ↔ ¬ g.Blocked s) := by
    intro hnil s r hr
    have hlt : s < g.size := by
      rw [← hsound.size_eq]
      exact (Array.getElem?_eq_some_iff.mp hr).1
    rw [hsound.issueTime_ne_none_iff htimed hr, hsound.mem_order_iff_of_ready_nil hg hnil hlt]
  cases hend with
  | complete hlength hresult =>
    rw [h, Prod.mk.injEq] at hresult
    obtain ⟨rfl, rfl⟩ := hresult
    refine ⟨?_, hissued (hsound.ready_eq_nil hlength)⟩
    have hacyclic := hsound.not_cyclic hlength
    have hperm := hsound.order_perm hlength
    rw [← hsize] at hperm
    -- the verdict is about the final records, the statement about the given ones
    have hover : DelimiterOvertaken (lastBoard g records).records (lastBoard g records).order ↔
        DelimiterOvertaken records (lastBoard g records).order :=
      delimiterOvertaken_of_sameBlock hsame (hsound.size_eq.trans hsize.symm)
    rcases hsound.verdict_eq hlength with ⟨hlast, hverdict⟩ | ⟨hlast, hverdict⟩
    · rw [hverdict, ← hsize]
      exact .overtaken hacyclic hperm (hover.mp hlast)
    · rw [hverdict]
      exact .scheduled hacyclic hperm (mt hover.mpr hlast)
  | stuck e hlength hstep hresult =>
    rw [h, Prod.mk.injEq] at hresult
    obtain ⟨rfl, rfl⟩ := hresult
    rcases step_eq_error hg hsound.positioned (Nat.le_of_eq hsound.size_eq.symm) hstep with
      ⟨rfl, _⟩ | ⟨hnil, rfl⟩
    · exact absurd rfl hfits
    · exact ⟨.blocked _ (hsound.cyclic_of_ready_nil hg hnil hlength), hissued hnil⟩

/-- **List scheduling is complete on acyclic graphs and detects every cycle.** The loop ends by itself, and
unless a count overflows:

* the records with an issue time at the end are those that no cycle leads to;
* nothing is ready at the end exactly if there is a cycle;
* without a cycle every slot issues exactly once, and an order that is returned is that order of issue;
* the order is never of another length than the block;
* a delimiter is reported exactly if it ends the block of an acyclic graph and has not issued last, and if
  it is not reported an acyclic graph gets an order. -/
theorem listSchedule_detects_cycles {g₀ g : Graph} {records final : Array Record}
    {result : Except ScheduleError (List Slot)} (hpos : Positioned records)
    (hfresh : ∀ r ∈ records, r.issueTime = none)
    (hsize : g₀.size = records.size) (hinv : g₀.invert = .ok g)
    (h : listSchedule g records = (final, result)) (hfits : result ≠ .error (.fault .overflow)) :
    (∃ b, Board.start g records = .ok b ∧
      ∀ fuel, records.size ≤ fuel → b.run g fuel = b.run g records.size) ∧
    (∀ (s : Nat) r, final[s]? = some r → (r.issueTime ≠ none ↔ ¬ g.Blocked s)) ∧
    ((∃ time, result = .error (.noReadyInstruction time)) ↔ g.Cyclic) ∧
    (¬ g.Cyclic → (lastBoard g records).order.Perm (List.range records.size)) ∧
    (∀ order, result = .ok order →
      order = (lastBoard g records).order ∧ order.Perm (List.range records.size)) ∧
    (∀ expected actual, result ≠ .error (.sizeMismatch expected actual)) ∧
    ((∃ slot, result = .error (.delimiterNotLast slot)) ↔
      ¬ g.Cyclic ∧ DelimiterOvertaken records (lastBoard g records).order) ∧
    (¬ g.Cyclic → ¬ DelimiterOvertaken records (lastBoard g records).order →
      ∃ order, result = .ok order) := by
  have hg := inverted_of_invert hinv
  have hsize' : records.size = g.size := by rw [size_of_invert hinv, hsize]
  obtain ⟨b, hb, _⟩ := Sound.start hsize' hpos
  obtain ⟨hverdict, hissued⟩ := verdict_of_listSchedule hg hsize' hpos hfresh h hfits
  refine ⟨⟨b, hb, fun _ => run_eq_of_le hg hsize' hpos hb⟩, hissued, ?_⟩
  -- each verdict decides all that is left
  cases hverdict with
  | blocked time hcyclic => simp [hcyclic]
  | overtaken hacyclic hperm hlast => simp [hacyclic, hperm, hlast]
  | scheduled hacyclic hperm hlast => simp [hacyclic, hperm, hlast]

def loopRecords : Array Record :=
  #[{ slot := 0, inst := { mnemonic := .mov }, port := .either, latency := 1 },
    { slot := 1, inst := { mnemonic := .mov }, port := .either, latency := 1 },
    { slot := 2, inst := { mnemonic := .mov }, port := .either, latency := 1 },
    { slot := 3, inst := { mnemonic := .mov }, port := .either, latency := 1 },
    { slot := 4, inst := { mnemonic := .ret }, port := .either, latency := 1 }]

/-- Two edges from the first move to the second, a loop at the third, and an edge from it to the fourth. -/
def loopGraph : Graph :=
  Graph.empty.addNode.addNode.addNode.addNode.addNode.insertEdges
    [{ source := 0, target := 1, hazard := .raw }, { source := 0, target := 1, hazard := .war },
     { source := 2, target := 2, hazard := .waw }, { source := 2, target := 3, hazard := .raw }]

/-- The loop and what is behind it stay behind, the delimiter issues all the same. -/
theorem listSchedule_detects_loop :
    Positioned loopRecords ∧ (∀ r ∈ loopRecords, r.issueTime = none) ∧
      loopGraph.size = loopRecords.size ∧
      ∃ g final, loopGraph.invert = .ok g ∧
        listSchedule g loopRecords = (final, .error (.noReadyInstruction 3)) ∧
        final.toList.map (·.issueTime) = [some 0, some 1, none, none, some 2] ∧
        g.Cyclic ∧ g.Blocked 3 ∧ ¬ g.Blocked 4 := by
  have hpos : Positioned loopRecords := by decide
  have hfresh : ∀ r ∈ loopRecords, r.issueTime = none := by decide
  have hsize : loopGraph.size = loopRecords.size := rfl
  refine ⟨hpos, hfresh, hsize, _, _, rfl, rfl, rfl, ?_⟩
  obtain ⟨_, hissued, hcyclic, _⟩ := listSchedule_detects_cycles hpos hfresh hsize rfl rfl nofun
  refine ⟨hcyclic.mp ⟨3, rfl⟩, ?_, ?_⟩
  · exact Classical.not_not.mp fun hfree => (hissued 3 _ rfl).mpr hfree rfl
  · exact (hissued 4 _ rfl).mp nofun

end DualIssue
