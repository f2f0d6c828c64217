import DualIssue.Proofs.CycleDetection
import DualIssue.Proofs.PostOrder

/-!
# The order in which the walk finishes slots

`Walk.Sound` says how the depth-first walk ends. This module says what it has listed by then: every slot
once, and each after all of its successors.

* **`SuccessorsFirst`**: no slot is listed before one of its successors.
* **`Pending`**: what the frames of the path still need. Whatever a frame has not followed yet is in its
  list, so a frame that has nothing left to follow has all of its successors in the order.
* **`Walk.Ordered`**: the invariant, with one lemma for each step of the walk.
* **`Graph.reverseTopologicalOrder_of_acyclic`**: without a cycle there is such an order of all slots.
-/

namespace DualIssue

open DualIssue.Graph

namespace Graph

/-! ## Successors first

The property of the final order, by itself. It is stated by cutting the order at a slot, which suits a list that
grows at its end: the new slot needs all of its successors in what is there already. -/

/-- Each slot is listed after all slots that depend on it. -/
def SuccessorsFirst (g : Graph) (order : List Slot) : Prop :=
  ∀ front slot back, order = front ++ slot :: back → ∀ next, g.Depends slot next → next ∈ front

theorem successorsFirst_nil (g : Graph) : g.SuccessorsFirst [] := by
  intro front slot back h
  cases front <;> cases h

/-- A slot whose successors are all listed may be listed next. A cut of the longer list is at the new slot or is
a cut of the old list. -/
theorem SuccessorsFirst.concat {g : Graph} {order : List Slot} (h : g.SuccessorsFirst order)
    {slot : Slot} (hnext : ∀ next, g.Depends slot next → next ∈ order) :
    g.SuccessorsFirst (order ++ [slot]) := by
  intro front s back heq next hdep
  rcases List.eq_nil_or_concat back with rfl | ⟨back, last, rfl⟩
  · -- the new slot is looked at
    obtain ⟨rfl, hlast⟩ := List.append_inj' heq rfl
    cases hlast
    exact hnext next hdep
  · rw [List.concat_eq_append, ← List.cons_append, ← List.append_assoc] at heq
    obtain ⟨rfl, _⟩ := List.append_inj' heq rfl
    exact h front s back rfl next hdep

/-- What is reached from a listed slot is listed before it. Induction from the start of the path: its first edge
leads to a slot in front, and the rest of the path starts there. -/
theorem SuccessorsFirst.mem_front_of_path {g : Graph} {order : List Slot} (h : g.SuccessorsFirst order)
    {a b : Slot} (hpath : Relation.TransGen g.Depends a b) :
    ∀ {front back}, order = front ++ a :: back → b ∈ front := by
  induction hpath using Relation.TransGen.head_induction_on with
  | single hdep => exact fun heq => h _ _ _ heq _ hdep
  | head hdep _ ih =>
    intro front back heq
    obtain ⟨before, between, rfl⟩ := List.append_of_mem (h _ _ _ heq _ hdep)
    rw [List.append_assoc, List.cons_append] at heq
    exact List.mem_append_left _ (ih heq)

/-- **A list without repetition that has successors first goes through no cycle**: a slot on one would be listed
before itself. -/
theorem SuccessorsFirst.not_onCycle {g : Graph} {order : List Slot} (h : g.SuccessorsFirst order)
    (hnodup : order.Nodup) {slot : Slot} (hslot : slot ∈ order) : ¬ g.OnCycle slot := by
  intro hcycle
  obtain ⟨front, back, rfl⟩ := List.append_of_mem hslot
  have hfront : slot ∈ front := h.mem_front_of_path hcycle rfl
  exact (List.nodup_append.mp hnodup).2.2 slot hfront slot List.mem_cons_self rfl

end Graph

/-! ## The invariant

The walk keeps a path of frames, each with the edges that it has not followed yet. A frame finishes after all
frames above it, so `Pending` adds the slots above to what the frames below may rely on. `Walk.Ordered` collects
this with what the marks say; there is one lemma for each thing that the walk does. -/

/-- What the frames of a path still need, if `order` is finished and the frames finish from the top: every
edge out of a frame is still to be followed, or it leads to a slot that is finished before the frame. -/
def Pending (g : Graph) (order : List Slot) : List Frame → Prop
  | [] => True
  | f :: below =>
    (∀ d ∈ g.succsOf f.slot, d ∈ f.rest ∨ d.slot ∈ order) ∧ Pending g (order ++ [f.slot]) below

/-- More finished slots do no harm. Induction down the path. -/
theorem Pending.mono {g : Graph} {order order' : List Slot} {path : List Frame} (h : Pending g order path)
    (hsub : order ⊆ order') : Pending g order' path := by
  induction path generalizing order order' with
  | nil => trivial
  | cons f below ih =>
    refine ⟨fun d hd => (h.1 d hd).imp_right fun hmem => hsub hmem, ih h.2 ?_⟩
    exact List.append_subset.mpr
      ⟨fun s hs => List.mem_append_left _ (hsub hs), List.subset_append_right _ _⟩

/-- What the walk has listed, after all of `seen` have been visited. -/
structure Walk.Ordered (g : Graph) (seen : List Slot) (w : Walk) (path : List Frame) : Prop where
  done_iff : ∀ slot : Nat, w.marks[slot]? = some .done ↔ slot ∈ w.order
  onPath : ∀ f ∈ path, w.marks[f.slot]? = some .inProgress
  distinct : path.Pairwise fun above below => above.slot ≠ below.slot
  nodup : w.order.Nodup
  successorsFirst : g.SuccessorsFirst w.order
  pending : Pending g w.order path
  /-- What has been visited is finished or on the path. -/
  covered : ∀ slot ∈ seen, slot ∈ w.order ∨ ∃ f ∈ path, f.slot = slot

/-- Marking a slot that exists changes its mark and no other. -/
theorem getElem?_mark {marks : Array Mark} {slot : Nat} {old : Mark} (h : marks[slot]? = some old)
    (new : Mark) (s : Nat) :
    (marks.setIfInBounds slot new)[s]? = if slot = s then some new else marks[s]? := by
  have hlt : slot < marks.size := (Array.getElem?_eq_some_iff.mp h).1
  rw [Array.getElem?_setIfInBounds, if_pos hlt]

namespace Walk.Ordered

variable {g : Graph} {seen : List Slot} {w : Walk} {path : List Frame}

theorem start (g : Graph) : Walk.Ordered g [] (Walk.start g) [] where
  done_iff := by
    intro slot
    have hmarks : ∀ mark : Mark, (Walk.start g).marks[slot]? = some mark → mark = .unvisited := by
      intro mark h
      have hmem := Array.mem_of_getElem? h
      simp only [Walk.start, Array.mem_replicate] at hmem
      exact hmem.2
    constructor
    · intro h
      cases hmarks _ h
    · intro h
      cases h
  onPath := by simp
  distinct := List.Pairwise.nil
  nodup := List.nodup_nil
  successorsFirst := successorsFirst_nil g
  pending := trivial
  covered := by simp

/-- The top has followed all of its edges, so it comes after all of its successors: `Pending` says that every
edge is still to be followed or leads to a slot in the order, and there is none of the first kind. -/
theorem finish {slot : Slot} (hg : g.Inverted) (h : Walk.Ordered g seen w (⟨slot, []⟩ :: path)) :
    Walk.Ordered g seen (w.finish slot) path := by
  have hmark : w.marks[slot]? = some .inProgress := h.onPath ⟨slot, []⟩ List.mem_cons_self
  have hmarks := getElem?_mark hmark .done
  obtain ⟨habove, hdistinct⟩ := List.pairwise_cons.mp h.distinct
  -- what is in progress is not done
  have hnew : slot ∉ w.order := by
    rw [← h.done_iff, hmark]
    exact nofun
  constructor
  case done_iff =>
    intro s
    show (w.marks.setIfInBounds slot .done)[s]? = _ ↔ s ∈ w.order ++ [slot]
    rw [hmarks, List.mem_append, List.mem_singleton]
    by_cases heq : slot = s
    · simp [heq]
    · simp only [if_neg heq, h.done_iff, Ne.symm heq, or_false]
  case onPath =>
    intro f hf
    show (w.marks.setIfInBounds slot .done)[f.slot]? = _
    rw [hmarks, if_neg (habove f hf)]
    exact h.onPath f (List.mem_cons_of_mem _ hf)
  case distinct => exact hdistinct
  case nodup =>
    show (w.order ++ [slot]).Nodup
    rw [← List.concat_eq_append]
    exact h.nodup.concat hnew
  case successorsFirst =>
    refine h.successorsFirst.concat fun next hdep => ?_
    obtain ⟨d, hd, rfl⟩ := hg.succs_iff.mpr hdep
    exact (h.pending.1 d hd).resolve_left List.not_mem_nil
  case pending => exact h.pending.2
  case covered =>
    intro s hs
    show s ∈ w.order ++ [slot] ∨ _
    rcases h.covered s hs with hmem | ⟨f, hf, rfl⟩
    · exact Or.inl (List.mem_append_left _ hmem)
    · rcases List.mem_cons.mp hf with rfl | hf
      · exact Or.inl (List.mem_append_right _ List.mem_cons_self)
      · exact Or.inr ⟨f, hf, rfl⟩

/-- The top moves on along an edge. What the edge leads to must be finished before the top is. -/
theorem advance {slot : Slot} {d : Dependency} {rest : List Dependency} {order : List Slot}
    (h : Walk.Ordered g seen w (⟨slot, d :: rest⟩ :: path)) (hsub : w.order ⊆ order)
    (hd : d.slot ∈ order) : Pending g order (⟨slot, rest⟩ :: path) := by
  have hpending := h.pending.mono hsub
  refine ⟨fun d' hd' => ?_, hpending.2⟩
  rcases hpending.1 d' hd' with hmem | hmem
  · rcases List.mem_cons.mp hmem with rfl | hmem
    · exact Or.inr hd
    · exact Or.inl hmem
  · exact Or.inr hmem

/-- An edge to a finished slot needs nothing more. -/
theorem skip {slot : Slot} {d : Dependency} {rest : List Dependency}
    (h : Walk.Ordered g seen w (⟨slot, d :: rest⟩ :: path)) (hdone : w.marks[d.slot]? = some .done) :
    Walk.Ordered g seen w (⟨slot, rest⟩ :: path) where
  done_iff := h.done_iff
  onPath := by
    intro f hf
    rcases List.mem_cons.mp hf with rfl | hf
    · exact h.onPath ⟨slot, d :: rest⟩ List.mem_cons_self
    · exact h.onPath f (List.mem_cons_of_mem _ hf)
  distinct := List.pairwise_cons.mpr (List.pairwise_cons.mp h.distinct)
  nodup := h.nodup
  successorsFirst := h.successorsFirst
  pending := h.advance (List.Subset.refl _) ((h.done_iff _).mp hdone)
  covered := by
    intro s hs
    refine (h.covered s hs).imp_right ?_
    rintro ⟨f, hf, rfl⟩
    rcases List.mem_cons.mp hf with rfl | hf
    · exact ⟨_, List.mem_cons_self, rfl⟩
    · exact ⟨f, List.mem_cons_of_mem _ hf, rfl⟩

/-- An unvisited slot can be put on top of a path that needs it next. The path may have moved on along an edge
meanwhile, which is why it is given with the same slots and not as it is. Nothing on it is unvisited, so the new
slot is distinct from all of them. -/
theorem enter {slot : Slot} (h : Walk.Ordered g seen w path) {path' : List Frame}
    (hpending : Pending g (w.order ++ [slot]) path')
    (hslots : path'.map Frame.slot = path.map Frame.slot) (hmark : w.marks[slot]? = some .unvisited) :
    Walk.Ordered g (slot :: seen) (w.enter slot) (⟨slot, g.succsOf slot⟩ :: path') := by
  have hmarks := getElem?_mark hmark .inProgress
  have hmem : ∀ s, (∃ f ∈ path', f.slot = s) ↔ ∃ f ∈ path, f.slot = s := by
    intro s
    rw [← List.mem_map, hslots, List.mem_map]
  -- the slots of the path are in progress, so the new one, which is unvisited, is none of them
  have hfresh : ∀ f ∈ path', slot ≠ f.slot ∧ w.marks[f.slot]? = some .inProgress := by
    intro f hf
    obtain ⟨f', hf', heq⟩ := (hmem f.slot).mp ⟨f, hf, rfl⟩
    have hpath := h.onPath f' hf'
    rw [heq] at hpath
    refine ⟨?_, hpath⟩
    rintro rfl
    cases hmark.symm.trans hpath
  constructor
  case done_iff =>
    intro s
    show (w.marks.setIfInBounds slot .inProgress)[s]? = _ ↔ s ∈ w.order
    rw [hmarks, ← h.done_iff]
    by_cases heq : slot = s
    · subst heq
      simp [hmark]
    · rw [if_neg heq]
  case onPath =>
    intro f hf
    show (w.marks.setIfInBounds slot .inProgress)[f.slot]? = _
    rw [hmarks]
    rcases List.mem_cons.mp hf with rfl | hf
    · exact if_pos rfl
    · rw [if_neg (hfresh f hf).1]
      exact (hfresh f hf).2
  case distinct =>
    refine List.pairwise_cons.mpr ⟨fun f hf => (hfresh f hf).1, ?_⟩
    have hdistinct := h.distinct
    rw [← List.pairwise_map, ← hslots, List.pairwise_map] at hdistinct
    exact hdistinct
  case nodup => exact h.nodup
  case successorsFirst => exact h.successorsFirst
  case pending => exact ⟨fun d hd => Or.inl hd, hpending⟩
  case covered =>
    intro s hs
    rcases List.mem_cons.mp hs with rfl | hs
    · exact Or.inr ⟨_, List.mem_cons_self, rfl⟩
    · refine (h.covered s hs).imp_right fun hpath => ?_
      obtain ⟨f, hf, heq⟩ := (hmem s).mpr hpath
      exact ⟨f, List.mem_cons_of_mem _ hf, heq⟩

/-- To have visited more than is asked for does no harm. -/
theorem mono {seen' : List Slot} (h : Walk.Ordered g seen w path) (hsub : seen' ⊆ seen) :
    Walk.Ordered g seen' w path :=
  { h with covered := fun slot hslot => h.covered slot (hsub hslot) }

end Walk.Ordered

/-! ## The whole walk

The lemmas about single steps are put together along the recursion of `follow`, then over the roots. The path is
empty between two roots, so everything visited by then is in the order. -/

namespace Graph

variable {g : Graph} {seen : List Slot} {w w' : Walk}

/-- Induction along the walk: what is on the path ends up in the order. The cases are the branches of `follow`;
two of them end with an error, which the hypothesis excludes. -/
theorem follow_ordered (hg : g.Inverted) (path : List Frame) (h : Walk.Ordered g seen w path)
    (hw : g.follow w path = .ok w') : Walk.Ordered g seen w' [] := by
  fun_induction Graph.follow g w path with
  | case1 w =>
    cases hw
    exact h
  | case2 w slot path ih => exact ih (h.finish hg) hw
  | case3 w slot d rest path hmark => cases hw
  | case4 w slot d rest path hmark => cases hw
  | case5 w slot d rest path hmark ih => exact ih (h.skip hmark) hw
  | case6 w slot d rest path hmark ih =>
    -- the new slot will be finished before the frame below it
    have hpending : Pending g (w.order ++ [d.slot]) (⟨slot, rest⟩ :: path) :=
      h.advance (List.subset_append_left _ _) (List.mem_append_right _ List.mem_cons_self)
    exact ih ((h.enter hpending rfl hmark).mono (List.subset_cons_self _ _)) hw

/-- From one root: it is entered and followed if it is unvisited. Otherwise there is nothing to do, and the root
is in the order already. -/
theorem walkFrom_ordered (hg : g.Inverted) {root : Slot} (hroot : root < g.size)
    (hsound : Walk.Sound g w []) (h : Walk.Ordered g seen w []) (hw : g.walkFrom w root = .ok w') :
    Walk.Ordered g (root :: seen) w' [] := by
  unfold walkFrom at hw
  split at hw
  · rename_i hmark
    have hpending : Pending g (w.order ++ [root]) [] := trivial
    exact follow_ordered hg _ (h.enter hpending rfl hmark) hw
  · rename_i hmark
    cases hw
    -- a root that an earlier one has reached is finished, since nothing is in progress
    have hdone : w.marks[root]? = some .done := by
      have hlt : root < w.marks.size := by
        rw [hsound.size_eq]
        exact hroot
      rw [Array.getElem?_eq_getElem hlt] at hmark ⊢
      cases hm : w.marks[root] with
      | unvisited => exact absurd (congrArg some hm) hmark
      | done => rfl
      | inProgress =>
        obtain ⟨f, hf, _⟩ := hsound.onPath root (by rw [Array.getElem?_eq_getElem hlt, hm])
        cases hf
    refine { h with covered := fun slot hslot => ?_ }
    rcases List.mem_cons.mp hslot with rfl | hslot
    · exact Or.inl ((h.done_iff _).mp hdone)
    · exact h.covered slot hslot

/-- The walks from all roots, one after the other. That the walk is sound between two roots comes from
`walkFrom_endsSoundly`. -/
theorem foldlM_walkFrom_ordered (hg : g.Inverted) (roots : List Slot) (hroots : ∀ r ∈ roots, r < g.size)
    (hsound : Walk.Sound g w []) (h : Walk.Ordered g seen w [])
    (hw : roots.foldlM g.walkFrom w = .ok w') : Walk.Ordered g (roots.reverse ++ seen) w' [] := by
  induction roots generalizing w seen with
  | nil =>
    cases hw
    exact h
  | cons root roots ih =>
    have hroot := hroots root List.mem_cons_self
    obtain ⟨next, hnext, hw⟩ := Except.bind_eq_ok_iff.mp hw
    have hsound' : Walk.Sound g next [] := by
      rcases walkFrom_endsSoundly hg w root hroot hsound with ⟨_, hok, hs⟩ | ⟨_, herr, _⟩
      · cases hok.symm.trans hnext
        exact hs
      · cases herr.symm.trans hnext
    have hall := ih (fun r hr => hroots r (List.mem_cons_of_mem _ hr)) hsound'
      (walkFrom_ordered hg hroot hsound h hnext) hw
    rw [List.reverse_cons, List.append_assoc]
    exact hall

/-- **An order that is returned lists every slot once, and each after its successors.** Every slot is a root, so
it has been visited, and at the end that means listed. -/
theorem order_of_reverseTopologicalOrder (hg : g.Inverted) {order : List Slot}
    (h : g.reverseTopologicalOrder = .ok order) :
    order.Perm (List.range g.size) ∧ g.SuccessorsFirst order := by
  have hlt : ∀ slot ∈ order, slot < g.size := by
    rcases reverseTopologicalOrder_endsSoundly hg with ⟨_, hok, hlt⟩ | ⟨_, herr, _⟩
    · cases hok.symm.trans h
      exact hlt
    · cases herr.symm.trans h
  obtain ⟨w, hw, horder⟩ := Except.bind_eq_ok_iff.mp h
  cases horder
  have hordered := foldlM_walkFrom_ordered hg _ (fun r hr => List.mem_range.mp hr) (Walk.Sound.start g)
    (Walk.Ordered.start g) hw
  refine ⟨?_, hordered.successorsFirst⟩
  -- each slot once, so a permutation is a matter of membership; the path is empty at the end
  refine (List.perm_ext_iff_of_nodup hordered.nodup List.nodup_range).mpr fun slot => ?_
  constructor
  · intro hmem
    exact List.mem_range.mpr (hlt slot hmem)
  · intro hmem
    rcases hordered.covered slot (List.mem_append_left _ (List.mem_reverse.mpr hmem)) with hdone | hpath
    · exact hdone
    · obtain ⟨f, hf, _⟩ := hpath
      cases hf

/-- **Without a cycle all slots are put in order**: the only other way to end is to report one. -/
theorem reverseTopologicalOrder_of_acyclic (hg : g.Inverted) (hacyclic : ¬ g.Cyclic) :
    ∃ order, g.reverseTopologicalOrder = .ok order ∧ order.Perm (List.range g.size) ∧
      g.SuccessorsFirst order := by
  rcases reverseTopologicalOrder_endsSoundly hg with ⟨order, hok, _⟩ | ⟨slot, _, hcycle⟩
  · exact ⟨order, hok, order_of_reverseTopologicalOrder hg hok⟩
  · exact absurd ⟨slot, hcycle⟩ hacyclic

/-- Where an order is returned there is no cycle, since every slot is listed and none of those listed is on one. -/
theorem not_cyclic_of_reverseTopologicalOrder (hg : g.Inverted) {order : List Slot}
    (h : g.reverseTopologicalOrder = .ok order) : ¬ g.Cyclic := by
  rintro ⟨slot, hcycle⟩
  obtain ⟨hperm, hfirst⟩ := order_of_reverseTopologicalOrder hg h
  have hmem : slot ∈ order := hperm.mem_iff.mpr (List.mem_range.mpr hcycle.lt_size)
  exact hfirst.not_onCycle (hperm.nodup_iff.mpr List.nodup_range) hmem hcycle

end Graph

end DualIssue
