import DualIssue.Proofs.CriticalPath
import DualIssue.Proofs.FinishingOrder
import Mathlib.Order.Bounds.Basic

/-!
# Critical paths are longest paths

The sweep over the slots reads what it has filled in for the successors of a slot and nothing else. Since
the order of the sweep has successors first, every entry is final when it is read, and by induction along
the sweep it is the length of a longest path.

* **`IsPath`** and **`pathLength`**: paths edge by edge, and what their slots and edges take together.
* **`isGreatest_pathFrom`**: the step. From the greatest lengths of all successors of a slot comes that of
  the slot.
* **`longestPaths_greatest`**: on a graph without cycles the sweep finds the greatest length from every slot,
  or there is a path whose length does not fit a count, and then it reports that.
-/

namespace DualIssue

namespace Graph

/-- The edges lead on from a slot, one after the other. -/
def IsPath (g : Graph) : Slot → List Edge → Prop
  | _, [] => True
  | slot, e :: path => e ∈ g.edges ∧ e.source = slot ∧ g.IsPath e.target path

/-- The latencies of all slots of a path and of all its edges. -/
def pathLength (latencies : List Nat) (slot : Slot) (path : List Edge) : Nat :=
  totalCost (fun s => latencies.getD s 0) (slot :: path.map Edge.target) +
    (path.map fun e => e.latency).sum

/-- The lengths of all paths from a slot. -/
def lengthsFrom (g : Graph) (latencies : List Nat) (slot : Slot) : Set Nat :=
  { n | ∃ path, g.IsPath slot path ∧ pathLength latencies slot path = n }

section Paths

variable {g g₀ : Graph} {latencies : List Nat} {slot : Slot}

theorem pathLength_nil (latencies : List Nat) (slot : Slot) :
    pathLength latencies slot [] = latencies.getD slot 0 := by
  simp [pathLength, totalCost]

/-- A longer path takes the latency of its first slot and of its first edge more than the rest. -/
theorem pathLength_cons (latencies : List Nat) (slot : Slot) (e : Edge) (path : List Edge) :
    pathLength latencies slot (e :: path) =
      latencies.getD slot 0 + (e.latency + pathLength latencies e.target path) := by
  simp only [pathLength, totalCost, List.map_cons, List.sum_cons]
  omega

theorem outgoing_mem_succsOf (hinv : g₀.invert = .ok g) {e : Edge} (he : e ∈ g.edges) :
    e.outgoing ∈ g.succsOf e.source := by
  have hlt : e.source < g₀.size := by
    rw [← size_of_invert hinv]
    exact (inverted_of_invert hinv).source_lt (depends_of_mem_edges he)
  rw [succsOf_of_invert hinv, if_pos hlt]
  refine List.mem_map_of_mem (List.mem_filter.mpr ⟨(mem_edges_of_invert hinv).mp he, ?_⟩)
  exact decide_eq_true rfl

/-- A path goes on along a successor. The successor has the label of a dependency, and this makes it an edge of
the graph. -/
theorem isPath_of_mem_succsOf (hg : g.Inverted) {d : Dependency} (hd : d ∈ g.succsOf slot)
    {path : List Edge} (hpath : g.IsPath d.slot path) :
    g.IsPath slot ({ d.toEdgeLabel with source := slot, target := d.slot } :: path) := by
  obtain ⟨p, hp, rfl, hlabel⟩ := hg.succs_label hd
  refine ⟨mem_edges_iff.mpr ⟨p, hp, ?_⟩, rfl, hpath⟩
  unfold Dependency.into
  rw [hlabel]

end Paths

/-! ## The sweep

The order of the sweep has the successors of each slot before it. So what the sweep reads for a slot has been
settled, and `Swept` can say of the settled slots that their entries are final. -/

section Sweep

variable {g g₀ : Graph} {latencies : List Nat} {paths : Array Nat} {slot : Slot}

/-- **The step.** A path from a slot is the slot alone, or an edge and a path from its target. The entry is one
of these lengths, through the successor with the latest rest, and none is greater. -/
theorem isGreatest_pathFrom (hinv : g₀.invert = .ok g)
    (hnext : ∀ next, g.Depends slot next → IsGreatest (g.lengthsFrom latencies next) (paths.getD next 0)) :
    IsGreatest (g.lengthsFrom latencies slot) (g.pathFrom latencies paths slot) := by
  have hg := inverted_of_invert hinv
  constructor
  · -- some path is that long: along a longest tail, if there is an edge at all
    by_cases hnil : g.succsOf slot = []
    · refine ⟨[], trivial, ?_⟩
      rw [pathLength_nil, pathFrom, hnil]
      rfl
    · have hne : (g.succsOf slot).map (fun d => d.latency + paths.getD d.slot 0) ≠ [] :=
        mt List.map_eq_nil_iff.mp hnil
      obtain ⟨d, hd, hlatest⟩ := List.mem_map.mp (List.max?_mem (max?_eq_latest hne))
      obtain ⟨path, hpath, hlength⟩ := (hnext d.slot (hg.succs_iff.mp ⟨d, hd, rfl⟩)).1
      refine ⟨_, isPath_of_mem_succsOf hg hd hpath, ?_⟩
      rw [pathLength_cons, hlength, pathFrom, ← hlatest]
  · -- no path is longer: its tail is at most the entry of the next slot
    rintro n ⟨path, hpath, rfl⟩
    cases path with
    | nil =>
      rw [pathLength_nil, pathFrom]
      exact Nat.le_add_right _ _
    | cons e path =>
      obtain ⟨he, rfl, hpath⟩ := hpath
      have hrest : pathLength latencies e.target path ≤ paths.getD e.target 0 :=
        (hnext e.target (depends_of_mem_edges he)).2 ⟨path, hpath, rfl⟩
      have htail : e.latency + paths.getD e.target 0 ≤
          latest ((g.succsOf e.source).map fun d => d.latency + paths.getD d.slot 0) :=
        le_latest (List.mem_map.mpr ⟨e.outgoing, outgoing_mem_succsOf hinv he, rfl⟩)
      rw [pathLength_cons, pathFrom]
      omega

/-- What the sweep has found when it is through with `settled`. -/
structure Swept (g : Graph) (latencies : List Nat) (settled : List Slot) (paths : Array Nat) : Prop where
  size_eq : paths.size = g.size
  longest : ∀ slot ∈ settled,
    IsGreatest (g.lengthsFrom latencies slot) (paths.getD slot 0) ∧ paths.getD slot 0 ≤ maxCycle

theorem swept_start (g : Graph) (latencies : List Nat) :
    g.Swept latencies [] (Array.replicate g.size 0) where
  size_eq := Array.size_replicate
  longest := by simp

/-- Settling a slot writes its entry and leaves those of all others. -/
theorem Swept.settle {settled : List Slot} (h : g.Swept latencies settled paths) (hslot : slot < g.size)
    (hgreatest : IsGreatest (g.lengthsFrom latencies slot) (g.pathFrom latencies paths slot))
    (hfits : g.pathFrom latencies paths slot ≤ maxCycle) :
    g.Swept latencies (settled ++ [slot])
      (paths.setIfInBounds slot (g.pathFrom latencies paths slot)) := by
  have hget : ∀ s, (paths.setIfInBounds slot (g.pathFrom latencies paths slot)).getD s 0 =
      if slot = s then g.pathFrom latencies paths slot else paths.getD s 0 := by
    intro s
    have hlt : slot < paths.size := by
      rw [h.size_eq]
      exact hslot
    rw [Array.getD_eq_getD_getElem?, Array.getElem?_setIfInBounds, if_pos hlt]
    split
    · rfl
    · rw [Array.getD_eq_getD_getElem?]
  refine ⟨Array.size_setIfInBounds.trans h.size_eq, fun s hs => ?_⟩
  rw [hget]
  by_cases heq : slot = s
  · rw [if_pos heq, ← heq]
    exact ⟨hgreatest, hfits⟩
  · rw [if_neg heq]
    refine h.longest s ((List.mem_append.mp hs).resolve_right fun hlast => heq ?_)
    exact (List.mem_singleton.mp hlast).symm

/-- **The sweep** ends with all slots of the order settled, or with a path that is too long. Successors come
first, so each step is `isGreatest_pathFrom` with what has been settled. -/
theorem foldlM_settlePath (hinv : g₀.invert = .ok g) (hlength : latencies.length = g.size)
    {order : List Slot} (hlt : ∀ slot ∈ order, slot < g.size) (hfirst : g.SuccessorsFirst order)
    (todo settled : List Slot) (horder : order = settled ++ todo)
    (h : g.Swept latencies settled paths) :
    (∃ final, todo.foldlM (g.settlePath latencies) paths = .ok final ∧ g.Swept latencies order final) ∨
      (todo.foldlM (g.settlePath latencies) paths = .error .overflow ∧
        ∃ slot ∈ order, ∃ n ∈ g.lengthsFrom latencies slot, maxCycle < n) := by
  -- along the rest of the order; what is settled is what has come before
  induction todo generalizing settled paths with
  | nil =>
    rw [List.append_nil] at horder
    exact Or.inl ⟨paths, rfl, horder ▸ h⟩
  | cons slot todo ih =>
    have hmem : slot ∈ order := by
      rw [horder]
      exact List.mem_append_right _ List.mem_cons_self
    have hgreatest := isGreatest_pathFrom hinv fun next hdep =>
      (h.longest next (hfirst settled slot todo horder next hdep)).1
    rw [List.foldlM_cons, settlePath_eq (hlength ▸ hlt slot hmem)]
    by_cases hfits : g.pathFrom latencies paths slot ≤ maxCycle
    · rw [if_pos hfits]
      refine ih (settled ++ [slot]) ?_ (h.settle (hlt slot hmem) hgreatest hfits)
      rw [horder, List.append_assoc]
      rfl
    · rw [if_neg hfits]
      exact Or.inr ⟨rfl, slot, hmem, _, hgreatest.1, Nat.lt_of_not_le hfits⟩

end Sweep

/-- **Critical paths are longest paths.** On an inverted graph without cycles, with a latency for each slot:
if the length of every path fits a count, the entry of each slot is the greatest length of a path from it;
otherwise the call reports an overflow. -/
theorem longestPaths_greatest {g₀ g : Graph} {latencies : List Nat} (hinv : g₀.invert = .ok g)
    (hacyclic : ¬ g.Cyclic) (hlength : latencies.length = g.size) :
    ((∀ slot < g.size, ∀ n ∈ g.lengthsFrom latencies slot, n ≤ maxCycle) →
      ∃ paths, g.longestPaths latencies = .ok paths ∧ paths.size = g.size ∧
        ∀ slot < g.size, IsGreatest (g.lengthsFrom latencies slot) (paths.getD slot 0)) ∧
    ((∃ slot < g.size, ∃ n ∈ g.lengthsFrom latencies slot, maxCycle < n) →
      g.longestPaths latencies = .error (.fault .overflow)) := by
  obtain ⟨order, horder, hperm, hfirst⟩ :=
    reverseTopologicalOrder_of_acyclic (inverted_of_invert hinv) hacyclic
  have hmem : ∀ slot : Nat, slot ∈ order ↔ slot < g.size := by
    intro slot
    rw [hperm.mem_iff, List.mem_range]
  have heq : g.longestPaths latencies =
      liftFault (order.foldlM (g.settlePath latencies) (Array.replicate g.size 0)) := by
    unfold longestPaths
    rw [horder]
    rfl
  rw [heq]
  -- either all entries fit, and then no path is too long, or one path is too long, and the call says so
  rcases foldlM_settlePath hinv hlength (fun slot => (hmem slot).mp) hfirst order [] rfl
    (swept_start g latencies) with ⟨paths, hfold, hswept⟩ | ⟨hfold, slot, hslot, n, hn, hover⟩
  · rw [hfold]
    refine ⟨fun _ => ⟨paths, rfl, hswept.size_eq, fun slot hlt =>
      (hswept.longest slot ((hmem slot).mpr hlt)).1⟩, ?_⟩
    rintro ⟨slot, hlt, n, hn, hover⟩
    obtain ⟨hgreatest, hfits⟩ := hswept.longest slot ((hmem slot).mpr hlt)
    exact absurd (Nat.le_trans (hgreatest.2 hn) hfits) (Nat.not_le_of_lt hover)
  · rw [hfold]
    refine ⟨fun hall => ?_, fun _ => rfl⟩
    exact absurd (hall slot ((hmem slot).mp hslot) n hn) (Nat.not_le_of_lt hover)

/-- Edges in both directions of the slot order, two of them parallel. -/
def parallelBranches : Graph :=
  Graph.empty.addNode.addNode.addNode.addNode.insertEdges
    [{ source := 2, target := 0, hazard := .war }, { source := 2, target := 0, hazard := .raw, latency := 9 },
     { source := 2, target := 3, hazard := .raw }, { source := 0, target := 1, hazard := .raw, latency := 1 },
     { source := 3, target := 1, hazard := .raw, latency := 5 }]

/-- From slot 2 the dearer of two parallel edges wins over the branch with the longer rest. With a latency
at the limit the path through it is too long. -/
theorem longestPaths_greatest_on_parallelBranches :
    ∃ g, parallelBranches.invert = .ok g ∧ ¬ g.Cyclic ∧ g.size = 4 ∧
      g.longestPaths [1, 2, 3, 4] = .ok #[4, 2, 16, 11] ∧
      IsGreatest (g.lengthsFrom [1, 2, 3, 4] 2) 16 ∧
      g.longestPaths [1, maxCycle, 3, 4] = .error (.fault .overflow) := by
  obtain ⟨g, hinv, hsize, horder, hpaths⟩ : ∃ g, parallelBranches.invert = .ok g ∧ g.size = 4 ∧
      g.reverseTopologicalOrder = .ok [1, 0, 3, 2] ∧
      g.longestPaths [1, 2, 3, 4] = .ok #[4, 2, 16, 11] := ⟨_, rfl, rfl, by cbv, by cbv⟩
  have hacyclic := not_cyclic_of_reverseTopologicalOrder (inverted_of_invert hinv) horder
  refine ⟨g, hinv, hacyclic, hsize, hpaths, ?_, ?_⟩
  · have hlength : [1, 2, 3, 4].length = g.size := hsize.symm
    obtain ⟨hgreatest, hover⟩ := longestPaths_greatest hinv hacyclic hlength
    obtain ⟨paths, hok, _, hall⟩ := hgreatest fun slot hlt n hn => by
      -- what is too long would have been reported
      refine Nat.le_of_not_lt fun hlong => ?_
      cases hpaths.symm.trans (hover ⟨slot, hlt, n, hn, hlong⟩)
    cases hpaths.symm.trans hok
    exact hall 2 (by rw [hsize]; decide)
  · have hedge : ({ source := 0, target := 1, hazard := .raw, latency := 1 } : Edge) ∈ g.edges :=
      (mem_edges_of_invert hinv).mpr (by decide)
    have hlength : [1, maxCycle, 3, 4].length = g.size := hsize.symm
    refine (longestPaths_greatest hinv hacyclic hlength).2
      ⟨0, ?_, _, ⟨[_], ⟨hedge, rfl, trivial⟩, rfl⟩, ?_⟩
    · rw [hsize]
      decide
    · decide

end Graph

end DualIssue
