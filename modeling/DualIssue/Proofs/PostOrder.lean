import DualIssue.Graph.CriticalPath
import DualIssue.Proofs.GraphEdges

/-!
# How the depth-first walk ends

The walk over an inverted graph has two ends: it finishes every slot, or it meets an edge back into its
current path and reports the slot. The second end is honest, the reported slot lies on a cycle; so over
forward edges the walk always finishes, and critical paths are found unless a count overflows.

The invariant is `Walk.Sound`. Marks tell the truth about the path (whatever is in progress is on it),
and every slot further down the path reaches every slot above it. An edge from the top to a slot in
progress then closes a cycle.
-/

namespace DualIssue

open DualIssue.Graph

/-- What holds of the walk between two steps. The path has its top first. -/
structure Walk.Sound (g : Graph) (w : Walk) (path : List Frame) : Prop where
  size_eq : w.marks.size = g.size
  /-- Whatever is in progress is on the path. -/
  onPath : ∀ slot, w.marks[slot]? = some .inProgress → ∃ f ∈ path, f.slot = slot
  path_lt : ∀ f ∈ path, f.slot < g.size
  linked : path.Pairwise fun above below => g.Reaches below.slot above.slot
  /-- What is still to be followed are edges of the graph. -/
  rest_mem : ∀ f ∈ path, ∀ d ∈ f.rest, d ∈ g.succsOf f.slot
  order_lt : ∀ slot ∈ w.order, slot < g.size

namespace Walk.Sound

variable {g : Graph} {w : Walk} {path : List Frame}

theorem start (g : Graph) : Walk.Sound g (Walk.start g) [] where
  size_eq := by simp [Walk.start]
  onPath := by
    intro slot h
    have := Array.mem_of_getElem? h
    simp [Walk.start] at this
  path_lt := by simp
  linked := List.Pairwise.nil
  rest_mem := by simp
  order_lt := by simp [Walk.start]

theorem reaches_top {f : Frame} (h : Walk.Sound g w (f :: path)) :
    ∀ f' ∈ f :: path, g.Reaches f'.slot f.slot := by
  intro f' hf'
  rcases List.mem_cons.mp hf' with rfl | hf'
  · exact Reaches.refl g _
  · exact (List.pairwise_cons.mp h.linked).1 f' hf'

/-- Finishing the top leaves a sound walk along the rest of the path. -/
theorem finish {slot : Slot} {rest : List Dependency}
    (h : Walk.Sound g w (⟨slot, rest⟩ :: path)) : Walk.Sound g (w.finish slot) path where
  size_eq := by
    show (w.marks.setIfInBounds slot .done).size = g.size
    rw [Array.size_setIfInBounds]
    exact h.size_eq
  onPath := by
    intro s hs
    replace hs : (w.marks.setIfInBounds slot .done)[s]? = some .inProgress := hs
    rw [Array.getElem?_setIfInBounds] at hs
    by_cases heq : slot = s
    · -- the finished slot is no longer in progress
      rw [if_pos heq] at hs
      split at hs <;> cases hs
    · rw [if_neg heq] at hs
      obtain ⟨f, hf, hfs⟩ := h.onPath s hs
      rcases List.mem_cons.mp hf with rfl | hf
      · exact absurd hfs heq
      · exact ⟨f, hf, hfs⟩
  path_lt := fun f hf => h.path_lt f (List.mem_cons_of_mem _ hf)
  linked := (List.pairwise_cons.mp h.linked).2
  rest_mem := fun f hf => h.rest_mem f (List.mem_cons_of_mem _ hf)
  order_lt := by
    intro s hs
    rcases List.mem_append.mp hs with hs | hs
    · exact h.order_lt s hs
    · rw [List.mem_singleton.mp hs]
      exact h.path_lt _ List.mem_cons_self

/-- An edge to a finished slot needs nothing. -/
theorem skip {slot : Slot} {d : Dependency} {rest : List Dependency}
    (h : Walk.Sound g w (⟨slot, d :: rest⟩ :: path)) : Walk.Sound g w (⟨slot, rest⟩ :: path) where
  size_eq := h.size_eq
  onPath := by
    intro s hs
    obtain ⟨f, hf, hfs⟩ := h.onPath s hs
    rcases List.mem_cons.mp hf with rfl | hf
    · exact ⟨_, List.mem_cons_self, hfs⟩
    · exact ⟨f, List.mem_cons_of_mem _ hf, hfs⟩
  path_lt := by
    intro f hf
    rcases List.mem_cons.mp hf with rfl | hf
    · exact h.path_lt ⟨slot, d :: rest⟩ List.mem_cons_self
    · exact h.path_lt f (List.mem_cons_of_mem _ hf)
  linked := List.pairwise_cons.mpr (List.pairwise_cons.mp h.linked)
  rest_mem := by
    intro f hf d' hd'
    rcases List.mem_cons.mp hf with rfl | hf
    · exact h.rest_mem ⟨slot, d :: rest⟩ List.mem_cons_self d' (List.mem_cons_of_mem _ hd')
    · exact h.rest_mem f (List.mem_cons_of_mem _ hf) d' hd'
  order_lt := h.order_lt

/-- A slot that everything on the path reaches can be put on top of it. -/
theorem enter {slot : Slot} (h : Walk.Sound g w path) (hlt : slot < g.size)
    (hreach : ∀ f ∈ path, g.Reaches f.slot slot) :
    Walk.Sound g (w.enter slot) (⟨slot, g.succsOf slot⟩ :: path) where
  size_eq := by
    show (w.marks.setIfInBounds slot .inProgress).size = g.size
    rw [Array.size_setIfInBounds]
    exact h.size_eq
  onPath := by
    intro s hs
    replace hs : (w.marks.setIfInBounds slot .inProgress)[s]? = some .inProgress := hs
    rw [Array.getElem?_setIfInBounds] at hs
    by_cases heq : slot = s
    · exact ⟨_, List.mem_cons_self, heq⟩
    · rw [if_neg heq] at hs
      obtain ⟨f, hf, hfs⟩ := h.onPath s hs
      exact ⟨f, List.mem_cons_of_mem _ hf, hfs⟩
  path_lt := by
    intro f hf
    rcases List.mem_cons.mp hf with rfl | hf
    · exact hlt
    · exact h.path_lt f hf
  linked := List.pairwise_cons.mpr ⟨hreach, h.linked⟩
  rest_mem := by
    intro f hf d hd
    rcases List.mem_cons.mp hf with rfl | hf
    · exact hd
    · exact h.rest_mem f hf d hd
  order_lt := h.order_lt

end Walk.Sound

/-! ## The two ends of the walk

A step of `follow` finishes the top, skips an edge, enters a slot or stops. The first three keep the walk
sound, by the lemmas above. The walks from the roots are put together by an induction on the list of roots. -/

/-- A computation over the walk ends soundly: with a walk in `P`, or with a slot on a cycle. -/
def EndsSoundly {α : Type} (g : Graph) (P : α → Prop) (result : Except ScheduleError α) : Prop :=
  (∃ a, result = .ok a ∧ P a) ∨ ∃ slot, result = .error (.dependencyCycle slot) ∧ g.OnCycle slot

/-- **Following a sound path ends soundly.** Induction along the walk; an edge into a slot in progress
closes the cycle through the path. -/
theorem Graph.follow_endsSoundly {g : Graph} (hg : g.Inverted) (w : Walk) (path : List Frame)
    (h : Walk.Sound g w path) : EndsSoundly g (Walk.Sound g · []) (g.follow w path) := by
  fun_induction Graph.follow g w path with
  | case1 w => exact Or.inl ⟨w, rfl, h⟩
  | case2 w slot path ih => exact ih h.finish
  | case3 w slot d rest path hmark =>
    -- every target exists, so its mark does
    have hedge : g.Depends slot d.slot :=
      hg.succs_iff.mp ⟨d, h.rest_mem _ List.mem_cons_self d List.mem_cons_self, rfl⟩
    have hlt : d.slot < w.marks.size := by
      rw [h.size_eq]
      exact hedge.target_lt
    rw [Array.getElem?_eq_getElem hlt] at hmark
    cases hmark
  | case4 w slot d rest path hmark =>
    have hedge : g.Depends slot d.slot :=
      hg.succs_iff.mp ⟨d, h.rest_mem _ List.mem_cons_self d List.mem_cons_self, rfl⟩
    -- what is in progress is on the path and reaches its top, from where the edge leads back
    obtain ⟨f, hf, hfs⟩ := h.onPath d.slot hmark
    have hpath : g.Reaches d.slot slot := by
      rw [← hfs]
      exact h.reaches_top f hf
    exact Or.inr ⟨d.slot, rfl, Relation.TransGen.tail' hpath hedge⟩
  | case5 w slot d rest path hmark ih => exact ih h.skip
  | case6 w slot d rest path hmark ih =>
    have hedge : g.Depends slot d.slot :=
      hg.succs_iff.mp ⟨d, h.rest_mem _ List.mem_cons_self d List.mem_cons_self, rfl⟩
    -- the edge is done with before its target goes on top of the path
    refine ih (h.skip.enter hedge.target_lt ?_)
    intro f hf
    exact (h.skip.reaches_top f hf).trans hedge.reaches

/-- A walk from a root follows the path of this root alone, or does nothing if the root has been visited. -/
theorem Graph.walkFrom_endsSoundly {g : Graph} (hg : g.Inverted) (w : Walk) (root : Slot)
    (hroot : root < g.size) (h : Walk.Sound g w []) :
    EndsSoundly g (Walk.Sound g · []) (g.walkFrom w root) := by
  unfold Graph.walkFrom
  split
  · exact follow_endsSoundly hg _ _ (h.enter hroot (by simp))
  · exact Or.inl ⟨w, rfl, h⟩

/-- **The order lists slots of the graph, or some slot lies on a cycle.** The walks from all roots are sound one
after the other, and the order is that of the last one. -/
theorem Graph.reverseTopologicalOrder_endsSoundly {g : Graph} (hg : g.Inverted) :
    EndsSoundly g (fun order => ∀ slot ∈ order, slot < g.size) g.reverseTopologicalOrder := by
  -- the walks from all roots, one after the other
  have hfold : ∀ (roots : List Slot) (w : Walk), (∀ r ∈ roots, r < g.size) → Walk.Sound g w [] →
      EndsSoundly g (Walk.Sound g · []) (roots.foldlM g.walkFrom w) := by
    intro roots
    induction roots with
    | nil =>
      intro w _ hw
      exact Or.inl ⟨w, rfl, hw⟩
    | cons root roots ih =>
      intro w hroots hw
      rw [List.foldlM_cons]
      rcases walkFrom_endsSoundly hg w root (hroots root List.mem_cons_self) hw with
        ⟨w', hw', hsound⟩ | ⟨slot, herr, hcycle⟩
      · rw [hw']
        exact ih w' (fun r hr => hroots r (List.mem_cons_of_mem _ hr)) hsound
      · rw [herr]
        exact Or.inr ⟨slot, rfl, hcycle⟩
  have hroots : ∀ r ∈ List.range g.size, r < g.size := fun r hr => List.mem_range.mp hr
  rcases hfold _ _ hroots (Walk.Sound.start g) with ⟨w, hw, hsound⟩ | ⟨slot, herr, hcycle⟩
  · refine Or.inl ⟨w.order, ?_, hsound.order_lt⟩
    unfold reverseTopologicalOrder
    rw [hw]
    rfl
  · refine Or.inr ⟨slot, ?_, hcycle⟩
    unfold reverseTopologicalOrder
    rw [herr]
    rfl

/-- Over forward edges every slot is finished, since nothing lies on a cycle. -/
theorem Graph.reverseTopologicalOrder_of_forward {g : Graph} (hg : g.Inverted) (hf : g.Forward) :
    ∃ order, g.reverseTopologicalOrder = .ok order ∧ ∀ slot ∈ order, slot < g.size := by
  rcases reverseTopologicalOrder_endsSoundly hg with hok | ⟨slot, _, hcycle⟩
  · exact hok
  · exact absurd hcycle (hf.not_onCycle slot)

end DualIssue
