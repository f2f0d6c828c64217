import DualIssue.Graph.CriticalPath
import DualIssue.Proofs.Budget
import DualIssue.Proofs.PostOrder

/-!
# Critical paths exist

Measuring the longest paths of a graph with forward edges succeeds or overflows. The walk meets no cycle,
every slot that it lists has a latency, and what is left are the sums of latencies. A budget bounds these:
the path from a slot is paid for by the slots from it on.
-/

namespace DualIssue

namespace Graph

variable {g : Graph} {latencies : List Nat}

/-! ## Settling one slot

The paths are settled slot by slot, each from those of its successors. With the checks of the counts taken out,
a step is a sum (`pathFrom`), and it fails exactly if this sum is out of range. -/

/-- What settling a slot comes to, the counts apart. -/
def pathFrom (g : Graph) (latencies : List Nat) (paths : Array Nat) (slot : Slot) : Nat :=
  latencies.getD slot 0 +
    latest ((g.succsOf slot).map fun d => d.latency + paths.getD d.slot 0)

/-- The longest tail behind the outgoing edges, or overflow if one of them is out of range. -/
theorem longestTail_eq (paths : Array Nat) (out : List Dependency) :
    longestTail paths out =
      if ∀ d ∈ out, d.latency + paths.getD d.slot 0 ≤ maxCycle then
        .ok (latest (out.map fun d => d.latency + paths.getD d.slot 0))
      else .error .overflow := by
  unfold longestTail
  rw [mapM_checkCycle]
  split <;> rfl

/-- **Settling a slot.** No tail is longer than the path, so only the path can overflow. The two checks of the
code are thereby one. -/
theorem settlePath_eq {paths : Array Nat} {slot : Slot} (hslot : slot < latencies.length) :
    g.settlePath latencies paths slot =
      if g.pathFrom latencies paths slot ≤ maxCycle then
        .ok (paths.setIfInBounds slot (g.pathFrom latencies paths slot))
      else .error .overflow := by
  have hlat : latencies[slot]? = some (latencies.getD slot 0) := by
    rw [List.getD_eq_getElem?_getD, List.getElem?_eq_getElem hslot]
    rfl
  unfold settlePath
  rw [longestTail_eq, hlat]
  by_cases htail : ∀ d ∈ g.succsOf slot, d.latency + paths.getD d.slot 0 ≤ maxCycle
  · rw [if_pos htail]
    show (checkCycle (g.pathFrom latencies paths slot) >>= fun path =>
      pure (paths.setIfInBounds slot path)) = _
    unfold checkCycle
    split <;> rfl
  · rw [if_neg htail, if_neg]
    · rfl
    · -- a tail that does not fit makes the whole path too long
      intro hpath
      refine htail fun d hd => ?_
      have hle := le_latest (List.mem_map_of_mem (f := fun d => d.latency + paths.getD d.slot 0) hd)
      unfold pathFrom at hpath
      omega

/-! ## Paths within a budget

A budget pays for a path with the costs of the slots from its start on. Edges lead forward, so the path behind
an edge is paid for by slots that the start has not used. This is kept while slots are settled, and it bounds
every count that is checked. -/

/-- Every path is paid for by the slots from its start on. -/
def PathsWithin (cost : Slot → Nat) (n : Nat) (paths : Array Nat) : Prop :=
  ∀ slot : Nat, slot < n →
    paths.getD slot 0 + totalCost cost (List.range slot) ≤ totalCost cost (List.range n)

section Budget

variable {cost : Slot → Nat} {paths : Array Nat} {slot : Slot}

theorem pathsWithin_replicate (cost : Slot → Nat) (n : Nat) :
    PathsWithin cost n (Array.replicate n 0) := by
  intro slot hslot
  have hzero : (Array.replicate n 0).getD slot 0 = 0 := by
    simp [Array.getD_eq_getD_getElem?, hslot]
  rw [hzero, Nat.zero_add]
  exact totalCost_range_le cost (Nat.le_of_lt hslot)

/-- An edge and the path behind it, with the latency in front of it. The cost of the slot pays for its latency
and for the edge, and the slots before the target pay for nothing that comes later. -/
theorem PathsWithin.tail_le (hw : PathsWithin cost g.size paths) (hg : g.Inverted) (hf : g.Forward)
    (hcov : CoversDelays g (fun s => latencies.getD s 0) cost) {d : Dependency}
    (hd : d ∈ g.succsOf slot) :
    latencies.getD slot 0 + (d.latency + paths.getD d.slot 0) + totalCost cost (List.range slot)
      ≤ totalCost cost (List.range g.size) := by
  -- the cost of the slot covers its latency and the edge
  have hdelay : latencies.getD slot 0 + d.latency ≤ cost slot := by
    obtain ⟨p, hp, rfl, hlabel⟩ := hg.succs_label hd
    have hlat : p.latency = d.latency := congrArg EdgeLabel.latency hlabel
    have hle := hcov.delay_le hp
    omega
  -- the rest of the path starts later
  have hdep : g.Depends slot d.slot := hg.succs_iff.mp ⟨d, hd, rfl⟩
  have hrest := hw d.slot hdep.target_lt
  have hlater : totalCost cost (List.range slot) + cost slot ≤ totalCost cost (List.range d.slot) := by
    rw [← totalCost_range_succ]
    exact totalCost_range_le cost (hf slot d.slot hdep)
  omega

/-- The path from a slot is its latency alone, or its latency with one of the tails. -/
theorem PathsWithin.pathFrom_le (hw : PathsWithin cost g.size paths) (hg : g.Inverted)
    (hf : g.Forward) (hcov : CoversDelays g (fun s => latencies.getD s 0) cost)
    (hslot : slot < g.size) :
    g.pathFrom latencies paths slot + totalCost cost (List.range slot)
      ≤ totalCost cost (List.range g.size) := by
  have hown : latencies.getD slot 0 + totalCost cost (List.range slot)
      ≤ totalCost cost (List.range g.size) := by
    have hle := hcov.latency_le slot
    have hsucc := totalCost_range_le cost (Nat.succ_le_of_lt hslot)
    rw [totalCost_range_succ] at hsucc
    omega
  have htail : latest ((g.succsOf slot).map fun d => d.latency + paths.getD d.slot 0) ≤
      totalCost cost (List.range g.size) - totalCost cost (List.range slot)
        - latencies.getD slot 0 := by
    refine latest_le ?_
    intro a ha
    obtain ⟨d, hd, rfl⟩ := List.mem_map.mp ha
    have hle := hw.tail_le hg hf hcov hd
    omega
  unfold pathFrom
  omega

/-- Settling a slot keeps all paths within the budget: the new one by `pathFrom_le`, the others are not touched. -/
theorem PathsWithin.settle (hw : PathsWithin cost g.size paths) (hg : g.Inverted) (hf : g.Forward)
    (hcov : CoversDelays g (fun s => latencies.getD s 0) cost) (hslot : slot < g.size) :
    PathsWithin cost g.size (paths.setIfInBounds slot (g.pathFrom latencies paths slot)) := by
  intro s hs
  by_cases heq : slot = s
  · subst heq
    have hpath := hw.pathFrom_le hg hf hcov hslot
    -- a slot out of bounds is not stored and reads as zero
    by_cases hlt : slot < paths.size
    · have hget : (paths.setIfInBounds slot (g.pathFrom latencies paths slot)).getD slot 0
          = g.pathFrom latencies paths slot := by
        simp [Array.getD_eq_getD_getElem?, hlt]
      rw [hget]
      exact hpath
    · have hget : (paths.setIfInBounds slot (g.pathFrom latencies paths slot)).getD slot 0 = 0 := by
        simp [Array.getD_eq_getD_getElem?, hlt]
      rw [hget]
      omega
  · have hget : (paths.setIfInBounds slot (g.pathFrom latencies paths slot)).getD s 0
        = paths.getD s 0 := by
      simp [Array.getD_eq_getD_getElem?, Array.getElem?_setIfInBounds_ne heq]
    rw [hget]
    exact hw s hs

end Budget

/-! ## Measuring all paths

The walk lists every slot after its successors and the fold settles them in that order. Either all of them are
settled, or one overflows, and then every budget that covers the delays is exceeded. -/

/-- The paths found so far: one for each slot, and within every budget that covers the delays. -/
structure Measured (g : Graph) (latencies : List Nat) (paths : Array Nat) : Prop where
  size_eq : paths.size = g.size
  within : ∀ cost, CoversDelays g (fun s => latencies.getD s 0) cost → PathsWithin cost g.size paths

theorem measured_replicate (g : Graph) (latencies : List Nat) :
    g.Measured latencies (Array.replicate g.size 0) where
  size_eq := Array.size_replicate
  within cost _ := pathsWithin_replicate cost g.size

/-- A step that succeeds keeps the paths within every budget. -/
theorem Measured.settlePath {paths paths' : Array Nat} {slot : Slot} (hm : g.Measured latencies paths)
    (hg : g.Inverted) (hf : g.Forward) (hlength : latencies.length = g.size) (hslot : slot < g.size)
    (h : g.settlePath latencies paths slot = .ok paths') : g.Measured latencies paths' := by
  rw [settlePath_eq (hlength ▸ hslot)] at h
  split at h
  · cases h
    exact ⟨Array.size_setIfInBounds.trans hm.size_eq, fun cost hcov =>
      (hm.within cost hcov).settle hg hf hcov hslot⟩
  · cases h

/-- A step that fails exceeds every budget that covers the delays: the path that did not fit is within the
budget. -/
theorem Measured.budget_exceeded {paths : Array Nat} {slot : Slot} {f : Fault}
    (hm : g.Measured latencies paths) (hg : g.Inverted) (hf : g.Forward)
    (hlength : latencies.length = g.size) (hslot : slot < g.size)
    (h : g.settlePath latencies paths slot = .error f) :
    f = .overflow ∧ ∀ cost, CoversDelays g (fun s => latencies.getD s 0) cost →
      maxCycle < totalCost cost (List.range g.size) := by
  rw [settlePath_eq (hlength ▸ hslot)] at h
  split at h
  · cases h
  · rename_i hover
    cases h
    refine ⟨rfl, fun cost hcov => ?_⟩
    have hle := (hm.within cost hcov).pathFrom_le hg hf hcov hslot
    omega

/-- **The longest paths of forward edges can be measured**, unless no fitting budget covers them. The walk
succeeds on forward edges (`reverseTopologicalOrder_of_forward`); the two outcomes of the fold are those of
`foldlM_ok_of_preserves` and `foldlM_error_of_preserves`. -/
theorem longestPaths_completes (hg : g.Inverted) (hf : g.Forward)
    (hlength : latencies.length = g.size) :
    (∃ paths, g.longestPaths latencies = .ok paths ∧ g.Measured latencies paths) ∨
      (g.longestPaths latencies = .error (.fault .overflow) ∧
        ∀ cost, CoversDelays g (fun s => latencies.getD s 0) cost →
          maxCycle < totalCost cost (List.range g.size)) := by
  obtain ⟨order, horder, hlt⟩ := reverseTopologicalOrder_of_forward hg hf
  have heq : g.longestPaths latencies =
      liftFault (order.foldlM (g.settlePath latencies) (Array.replicate g.size 0)) := by
    unfold longestPaths
    rw [horder]
    rfl
  have hkeeps : ∀ paths slot paths', slot ∈ order → g.Measured latencies paths →
      g.settlePath latencies paths slot = .ok paths' → g.Measured latencies paths' :=
    fun _ slot _ hmem hm => hm.settlePath hg hf hlength (hlt slot hmem)
  have hstart := measured_replicate g latencies
  rw [heq]
  cases hfold : order.foldlM (g.settlePath latencies) (Array.replicate g.size 0) with
  | ok paths => exact Or.inl ⟨paths, rfl, foldlM_ok_of_preserves hstart hkeeps hfold⟩
  | error f =>
    -- the sweep stops at some slot, with what it had measured until then
    obtain ⟨paths, slot, hmem, hm, herr⟩ := foldlM_error_of_preserves hstart hkeeps hfold
    obtain ⟨rfl, hover⟩ := hm.budget_exceeded hg hf hlength (hlt slot hmem) herr
    exact Or.inr ⟨rfl, hover⟩

/-- What was measured is within every budget that covers the delays. -/
theorem measured_of_longestPaths (hg : g.Inverted) (hf : g.Forward)
    (hlength : latencies.length = g.size) {paths : Array Nat}
    (h : g.longestPaths latencies = .ok paths) : g.Measured latencies paths := by
  rcases longestPaths_completes hg hf hlength with ⟨paths', hok, hm⟩ | ⟨herr, _⟩
  · cases hok.symm.trans h
    exact hm
  · cases herr.symm.trans h

end Graph

end DualIssue
