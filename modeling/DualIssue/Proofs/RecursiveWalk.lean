import DualIssue.Proofs.PostOrder

/-!
# The walk as a recursion

The walk keeps its path in a list of frames. This module defines the same walk without one, by recursion over
slots and edges, and shows that the two return the same, errors included.

* **`Graph.visit`** and **`Graph.visitAll`**: a slot is in progress while its edges are visited and finished
  afterwards. The marks and the order are written here anew, not with the operations of the walk. The recursion
  ends because entering a slot leaves less to visit, so what a visit returns is an **`Onward`** walk, which
  carries that bound.
* **`Graph.follow_cons`**: the simulation. Following a path is visiting what is left of its top frame, finishing
  the slot and following the rest of the path, at every depth. An error of the visit is the error of the whole.
* **`Graph.reverseTopologicalOrder_eq_recursiveOrder`** puts the roots together.
-/

namespace DualIssue

namespace Graph

section Cost

/-- What the slots that have not been visited can still cost. -/
def costLeft (g : Graph) (w : Walk) : Nat := g.unvisitedCost 0 w.marks.toList

variable {g : Graph} {w : Walk} {slot : Slot}

/-- Entering a slot takes its cost off what is left. -/
theorem costLeft_enter_lt (h : w.marks[slot]? = some .unvisited) :
    g.costLeft (w.enter slot) < g.costLeft w := by
  have hset := g.unvisitedCost_set w.marks.toList 0 slot (by simpa using h)
  show g.unvisitedCost 0 (w.marks.setIfInBounds slot .inProgress).toList < _
  rw [Array.toList_setIfInBounds]
  unfold costLeft
  omega

theorem costLeft_finish_le (g : Graph) (w : Walk) (slot : Slot) :
    g.costLeft (w.finish slot) ≤ g.costLeft w := by
  show g.unvisitedCost 0 (w.marks.setIfInBounds slot .done).toList ≤ _
  rw [Array.toList_setIfInBounds]
  exact g.unvisitedCost_set_done_le w.marks.toList 0 slot

end Cost

/-- A walk that has gone on from `w`: it has no more left to visit. -/
structure Onward (g : Graph) (w : Walk) where
  walk : Walk
  cost_le : g.costLeft walk ≤ g.costLeft w

mutual

/-- Visits a slot: a slot in progress closes a cycle, a finished one needs nothing, and any other is in
progress until all of its edges have been visited, then it is finished. -/
def visit (g : Graph) (w : Walk) (slot : Slot) : Except ScheduleError (g.Onward w) :=
  match h : w.marks[slot]? with
  | some .inProgress => .error (.dependencyCycle slot)
  | some .done => .ok ⟨w, Nat.le_refl _⟩
  | some .unvisited => do
    let inner ← g.visitAll { w with marks := w.marks.setIfInBounds slot .inProgress } (g.succsOf slot)
    return ⟨{ marks := inner.walk.marks.setIfInBounds slot .done, order := inner.walk.order ++ [slot] }, by
      have henter := Nat.le_of_lt (costLeft_enter_lt (g := g) h)
      have hfinish := g.costLeft_finish_le inner.walk slot
      exact Nat.le_trans hfinish (Nat.le_trans inner.cost_le henter)⟩
  | none => .error (.fault .missingSlot)
termination_by (g.costLeft w, 0)
decreasing_by
  exact Prod.Lex.left _ _ (costLeft_enter_lt h)

/-- Visits the targets of edges, from the first to the last. -/
def visitAll (g : Graph) (w : Walk) (edges : List Dependency) : Except ScheduleError (g.Onward w) :=
  match edges with
  | [] => .ok ⟨w, Nat.le_refl _⟩
  | d :: rest => do
    let first ← g.visit w d.slot
    let last ← g.visitAll first.walk rest
    return ⟨last.walk, Nat.le_trans last.cost_le first.cost_le⟩
termination_by (g.costLeft w, edges.length)
decreasing_by
  · exact Prod.Lex.right _ (Nat.succ_pos _)
  · rcases Nat.lt_or_eq_of_le first.cost_le with hlt | heq
    · exact Prod.Lex.left _ _ hlt
    · rw [heq]
      exact Prod.Lex.right _ (Nat.lt_succ_self _)

end

/-- Visits a root, unless an earlier one has reached it. -/
def visitRoot (g : Graph) (w : Walk) (root : Slot) : Except ScheduleError Walk :=
  if w.marks[root]? = some .unvisited then (g.visit w root).map Onward.walk else .ok w

/-- The slots in the order in which the recursion finishes them, from each root in slot order. -/
def recursiveOrder (g : Graph) : Except ScheduleError (List Slot) := do
  let w ← (List.range g.size).foldlM g.visitRoot { marks := Array.replicate g.size .unvisited }
  return w.order

/-! ## The simulation

One lemma for each mark says what a visit returns, in the terms of the walk over frames. With these the
simulation goes through the cases of `follow`, whose path is arbitrary: the recursion comes back to the frame
below when it returns. -/

section Marks

variable {g : Graph} {w : Walk} {slot : Slot}

theorem visit_of_none (h : w.marks[slot]? = none) : g.visit w slot = .error (.fault .missingSlot) := by
  rw [visit]
  split <;> simp_all

theorem visit_of_inProgress (h : w.marks[slot]? = some .inProgress) :
    g.visit w slot = .error (.dependencyCycle slot) := by
  rw [visit]
  split <;> simp_all

theorem visit_of_done (h : w.marks[slot]? = some .done) :
    g.visit w slot = .ok ⟨w, Nat.le_refl _⟩ := by
  rw [visit]
  split <;> simp_all

/-- A slot that was not visited is entered, its edges are visited, and it is finished. -/
theorem visit_of_unvisited (h : w.marks[slot]? = some .unvisited) :
    (g.visit w slot).map Onward.walk =
      (g.visitAll (w.enter slot) (g.succsOf slot)).map fun inner => inner.walk.finish slot := by
  rw [visit]
  split
  · simp_all
  · simp_all
  · show Except.map Onward.walk (g.visitAll (w.enter slot) (g.succsOf slot) >>= _) = _
    cases g.visitAll (w.enter slot) (g.succsOf slot) <;> rfl
  · simp_all

end Marks

/-- Visiting edges and going on is visiting the first edge and going on with the rest. Stated for any
continuation, since the frames below the top are one. -/
theorem bind_visitAll_cons {α : Type} (g : Graph) (w : Walk) (d : Dependency) (rest : List Dependency)
    (next : Walk → Except ScheduleError α) :
    (g.visitAll w (d :: rest) >>= fun later => next later.walk) =
      (g.visit w d.slot).map Onward.walk >>= fun w' =>
        g.visitAll w' rest >>= fun later => next later.walk := by
  rw [visitAll]
  cases g.visit w d.slot with
  | error e => rfl
  | ok first =>
    show ((g.visitAll first.walk rest >>= _) >>= _) = (g.visitAll first.walk rest >>= _)
    cases g.visitAll first.walk rest <;> rfl

/-- **The simulation.** Following a path is visiting the edges left in its top frame, finishing the slot and
following the rest. The recursion is that of the visits: what is left to visit decreases when a slot is entered,
and otherwise the edges of the frame do. -/
theorem follow_cons (g : Graph) (w : Walk) (slot : Slot) (rest : List Dependency) (path : List Frame) :
    g.follow w (⟨slot, rest⟩ :: path) =
      g.visitAll w rest >>= fun later => g.follow (later.walk.finish slot) path := by
  cases rest with
  | nil =>
    rw [follow, visitAll]
    rfl
  | cons d rest =>
    rw [bind_visitAll_cons g w d rest fun w' => g.follow (w'.finish slot) path, follow]
    split
    · rename_i hmark
      rw [visit_of_none hmark]
      rfl
    · rename_i hmark
      rw [visit_of_inProgress hmark]
      rfl
    · rename_i hmark
      rw [visit_of_done hmark, follow_cons]
      rfl
    · rename_i hmark
      -- once for the frame of the new slot, and once for the frame below, with what the first has visited
      have henter := costLeft_enter_lt (g := g) hmark
      rw [visit_of_unvisited hmark, follow_cons]
      cases hinner : g.visitAll (w.enter d.slot) (g.succsOf d.slot) with
      | error e => rfl
      | ok inner =>
        have hfinish := g.costLeft_finish_le inner.walk d.slot
        have hcost := inner.cost_le
        show g.follow (inner.walk.finish d.slot) (⟨slot, rest⟩ :: path) = _
        rw [follow_cons]
        rfl
termination_by (g.costLeft w, rest.length)
decreasing_by
  · exact Prod.Lex.right _ (Nat.lt_succ_self _)
  · exact Prod.Lex.left _ _ henter
  · exact Prod.Lex.left _ _ (by omega)

/-- From a root the path is one frame. -/
theorem walkFrom_eq_visitRoot (g : Graph) (w : Walk) (root : Slot) :
    g.walkFrom w root = g.visitRoot w root := by
  unfold walkFrom visitRoot
  split
  · rename_i hmark
    rw [follow_cons, visit_of_unvisited hmark]
    cases g.visitAll (w.enter root) (g.succsOf root) with
    | error e => rfl
    | ok inner =>
      show g.follow (inner.walk.finish root) [] = .ok (inner.walk.finish root)
      rw [follow]
  · rfl

/-! ## Targets that exist

A slot without a mark is a fault and no cycle. If all targets exist, every slot that is met has a mark, so the
one error that can occur is a cycle. -/

/-- The walk has a mark for every slot, and what it still has to follow leads to slots. -/
structure InRange (g : Graph) (w : Walk) (path : List Frame) : Prop where
  size_eq : w.marks.size = g.size
  rest_lt : ∀ f ∈ path, ∀ d ∈ f.rest, d.slot < g.size

namespace InRange

variable {g : Graph} {w : Walk} {path : List Frame} {slot : Slot} {d : Dependency}
  {rest : List Dependency}

theorem start (g : Graph) : g.InRange (Walk.start g) [] := ⟨by simp [Walk.start], by simp⟩

theorem mark_ne_none (h : g.InRange w (⟨slot, d :: rest⟩ :: path)) : w.marks[d.slot]? ≠ none := by
  have hlt : d.slot < w.marks.size := by
    rw [h.size_eq]
    exact h.rest_lt _ List.mem_cons_self d List.mem_cons_self
  rw [Array.getElem?_eq_getElem hlt]
  exact Option.some_ne_none _

theorem finish (h : g.InRange w (⟨slot, rest⟩ :: path)) : g.InRange (w.finish slot) path where
  size_eq := Array.size_setIfInBounds.trans h.size_eq
  rest_lt := fun f hf => h.rest_lt f (List.mem_cons_of_mem _ hf)

theorem skip (h : g.InRange w (⟨slot, d :: rest⟩ :: path)) : g.InRange w (⟨slot, rest⟩ :: path) := by
  obtain ⟨htop, hbelow⟩ := List.forall_mem_cons.mp h.rest_lt
  refine ⟨h.size_eq, List.forall_mem_cons.mpr ⟨fun d' hd' => ?_, hbelow⟩⟩
  exact htop d' (List.mem_cons_of_mem _ hd')

theorem enter (hrange : ∀ slot, ∀ d ∈ g.succsOf slot, d.slot < g.size) (h : g.InRange w path)
    (slot : Slot) : g.InRange (w.enter slot) (⟨slot, g.succsOf slot⟩ :: path) where
  size_eq := Array.size_setIfInBounds.trans h.size_eq
  rest_lt := List.forall_mem_cons.mpr ⟨hrange slot, h.rest_lt⟩

end InRange

section Range

variable {g : Graph} (hrange : ∀ slot, ∀ d ∈ g.succsOf slot, d.slot < g.size) {w : Walk}

include hrange

/-- Following a path ends in a walk with all of its marks, or in a cycle. Induction along the walk. -/
theorem follow_inRange (path : List Frame) (h : g.InRange w path) :
    (∀ w', g.follow w path = .ok w' → g.InRange w' []) ∧
      ∀ e, g.follow w path = .error e → ∃ slot, e = .dependencyCycle slot := by
  fun_induction Graph.follow g w path with
  | case1 w =>
    constructor
    · intro w' hw'
      cases hw'
      exact h
    · intro e he
      cases he
  | case2 w slot path ih => exact ih h.finish
  | case3 w slot d rest path hmark => exact absurd hmark h.mark_ne_none
  | case4 w slot d rest path hmark =>
    constructor
    · intro w' hw'
      cases hw'
    · intro e he
      cases he
      exact ⟨d.slot, rfl⟩
  | case5 w slot d rest path hmark ih => exact ih h.skip
  | case6 w slot d rest path hmark ih => exact ih (h.skip.enter hrange d.slot)

theorem walkFrom_inRange {root : Slot} (h : g.InRange w []) :
    (∀ w', g.walkFrom w root = .ok w' → g.InRange w' []) ∧
      ∀ e, g.walkFrom w root = .error e → ∃ slot, e = .dependencyCycle slot := by
  unfold walkFrom
  split
  · exact follow_inRange hrange _ (h.enter hrange root)
  · constructor
    · intro w' hw'
      cases hw'
      exact h
    · intro e he
      cases he

end Range

/-- **The walk over frames is the recursive one.** If all successors exist, both return the same order or report
the same slot of a cycle, whatever cycles there are. -/
theorem reverseTopologicalOrder_eq_recursiveOrder {g : Graph}
    (hrange : ∀ slot, ∀ d ∈ g.succsOf slot, d.slot < g.size) :
    g.reverseTopologicalOrder = g.recursiveOrder ∧
      ∀ e, g.reverseTopologicalOrder = .error e → ∃ slot, e = .dependencyCycle slot := by
  constructor
  · have hroots : g.walkFrom = g.visitRoot := by
      funext w root
      exact g.walkFrom_eq_visitRoot w root
    unfold reverseTopologicalOrder recursiveOrder
    rw [hroots]
    rfl
  · intro e he
    -- an error comes from one of the walks, and all before it have kept their marks
    rcases Except.bind_eq_error_iff.mp he with hfold | ⟨_, _, hpure⟩
    · obtain ⟨w, root, _, hw, hroot⟩ := foldlM_error_of_preserves (P := (g.InRange · []))
        (InRange.start g) (fun _ _ w' _ hw => (walkFrom_inRange hrange hw).1 w') hfold
      exact (walkFrom_inRange hrange hw).2 e hroot
    · cases hpure

/-- Two edges lead from slot 0 to slot 2. From there one edge leads to slot 1, where nothing follows, and another
through slot 3 to slot 4. -/
def nestedChain : Graph :=
  Graph.empty.addNode.addNode.addNode.addNode.addNode.insertEdges
    [{ source := 0, target := 2, hazard := .raw }, { source := 0, target := 2, hazard := .war },
     { source := 2, target := 1, hazard := .raw }, { source := 2, target := 3, hazard := .raw },
     { source := 3, target := 4, hazard := .raw }]

/-- The same with an edge from slot 4 back to slot 3. -/
def nestedCycle : Graph := nestedChain.insertEdges [{ source := 4, target := 3, hazard := .waw }]

/-- On the chain both finish slot 1 first and come back through the others. On the cycle slot 1 is finished and four
slots are in progress when the cycle is met, and both report where it closes. -/
theorem recursiveOrder_on_nestedCycle :
    (∃ g, nestedChain.invert = .ok g ∧ (∀ slot, ∀ d ∈ g.succsOf slot, d.slot < g.size) ∧
      g.reverseTopologicalOrder = .ok [1, 4, 3, 2, 0] ∧ g.recursiveOrder = .ok [1, 4, 3, 2, 0]) ∧
    ∃ g, nestedCycle.invert = .ok g ∧ (∀ slot, ∀ d ∈ g.succsOf slot, d.slot < g.size) ∧
      g.reverseTopologicalOrder = .error (.dependencyCycle 3) ∧
      g.recursiveOrder = .error (.dependencyCycle 3) := by
  have hrange : ∀ {g₀ g : Graph}, g₀.invert = .ok g → ∀ slot, ∀ d ∈ g.succsOf slot, d.slot < g.size :=
    fun hinv slot d hd => Depends.target_lt ((inverted_of_invert hinv).succs_iff.mp ⟨d, hd, rfl⟩)
  constructor
  · obtain ⟨g, hinv, horder⟩ : ∃ g, nestedChain.invert = .ok g ∧
        g.reverseTopologicalOrder = .ok [1, 4, 3, 2, 0] := ⟨_, rfl, by cbv⟩
    refine ⟨g, hinv, hrange hinv, horder, ?_⟩
    rw [← (reverseTopologicalOrder_eq_recursiveOrder (hrange hinv)).1]
    exact horder
  · obtain ⟨g, hinv, hcycle⟩ : ∃ g, nestedCycle.invert = .ok g ∧
        g.reverseTopologicalOrder = .error (.dependencyCycle 3) := ⟨_, rfl, by cbv⟩
    refine ⟨g, hinv, hrange hinv, hcycle, ?_⟩
    rw [← (reverseTopologicalOrder_eq_recursiveOrder (hrange hinv)).1]
    exact hcycle

end Graph

end DualIssue
