import DualIssue.Proofs.FinishingOrder
import DualIssue.Proofs.RecursiveWalk

/-!
# The walk decides acyclicity

The walk over an inverted graph ends with an order exactly if the graph has no directed cycle. That it ends is said
of its loop, spelled out turn by turn: there are no more turns than the potential that the walk starts with.

* **`Graph.Turns`**: the loop over all roots, with the number of its turns. A turn finishes the slot on top of the
  path or follows one edge out of it.
* **`Graph.reverseTopologicalOrder_turns`**: what the walk returns is what the loop ends with, within its bound.
* **`Graph.reverseTopologicalOrder_decides_acyclicity`**: order or cycle, and what each of them means.
-/

namespace DualIssue

namespace Graph

/-! ## The turns of the loop

`Graph.follow` is a recursion whose measure is the potential. To say that the loop ends is to count its turns,
so the loop is described once more as a relation with a counter. Each case of `Turns` is one branch of the loop,
and the proofs below go along the recursion of `follow` and pay for each turn with the lemma about the potential
that belongs to its branch. -/

/-- With these roots still to come, from this walk and along this path, the loop ends after `turns` turns. -/
inductive Turns (g : Graph) : List Slot → Walk → List Frame → Nat → Except ScheduleError (List Slot) → Prop where
  | ended {w : Walk} : Turns g [] w [] 0 (.ok w.order)
  /-- A root that has been reached before. -/
  | passed {w : Walk} {root : Slot} {roots : List Slot} {turns : Nat}
      {result : Except ScheduleError (List Slot)} (hmark : w.marks[root]? ≠ some .unvisited)
      (h : Turns g roots w [] turns result) : Turns g (root :: roots) w [] turns result
  | begun {w : Walk} {root : Slot} {roots : List Slot} {turns : Nat}
      {result : Except ScheduleError (List Slot)} (hmark : w.marks[root]? = some .unvisited)
      (h : Turns g roots (w.enter root) [⟨root, g.succsOf root⟩] turns result) :
      Turns g (root :: roots) w [] turns result
  | finished {w : Walk} {slot : Slot} {path : List Frame} {roots : List Slot} {turns : Nat}
      {result : Except ScheduleError (List Slot)} (h : Turns g roots (w.finish slot) path turns result) :
      Turns g roots w (⟨slot, []⟩ :: path) (turns + 1) result
  | skipped {w : Walk} {slot : Slot} {d : Dependency} {rest : List Dependency} {path : List Frame}
      {roots : List Slot} {turns : Nat} {result : Except ScheduleError (List Slot)}
      (hmark : w.marks[d.slot]? = some .done) (h : Turns g roots w (⟨slot, rest⟩ :: path) turns result) :
      Turns g roots w (⟨slot, d :: rest⟩ :: path) (turns + 1) result
  | entered {w : Walk} {slot : Slot} {d : Dependency} {rest : List Dependency} {path : List Frame}
      {roots : List Slot} {turns : Nat} {result : Except ScheduleError (List Slot)}
      (hmark : w.marks[d.slot]? = some .unvisited)
      (h : Turns g roots (w.enter d.slot) (⟨d.slot, g.succsOf d.slot⟩ :: ⟨slot, rest⟩ :: path) turns result) :
      Turns g roots w (⟨slot, d :: rest⟩ :: path) (turns + 1) result
  | closed {w : Walk} {slot : Slot} {d : Dependency} {rest : List Dependency} {path : List Frame}
      {roots : List Slot} (hmark : w.marks[d.slot]? = some .inProgress) :
      Turns g roots w (⟨slot, d :: rest⟩ :: path) 1 (.error (.dependencyCycle d.slot))

section Bound

variable {g : Graph} (hrange : ∀ slot, ∀ d ∈ g.succsOf slot, d.slot < g.size) {w : Walk}

include hrange

/-- Along a path: the turns of the walk come before whatever the loop does when the path is empty. The induction
is the recursion of `follow` itself. What comes after the path is a hypothesis, for the case that the path is
walked to its end (`hok`) and for the case that a cycle is found on it (`herror`), so that the lemma composes
over the roots. -/
theorem follow_turns {path : List Frame} (h : g.InRange w path) (roots : List Slot)
    (result : Except ScheduleError (List Slot))
    (hok : ∀ w', g.follow w path = .ok w' → ∃ turns ≤ g.potential w' [], g.Turns roots w' [] turns result)
    (herror : ∀ e, g.follow w path = .error e → result = .error e) :
    ∃ turns ≤ g.potential w path, g.Turns roots w path turns result := by
  fun_induction Graph.follow g w path with
  | case1 w => exact hok w rfl
  | case2 w slot path ih =>
    obtain ⟨turns, hle, hturns⟩ := ih h.finish hok herror
    have := g.potential_finish_lt w slot path
    exact ⟨turns + 1, by omega, hturns.finished⟩
  -- no slot on the path is out of range, so its mark is there
  | case3 w slot d rest path hmark => exact absurd hmark h.mark_ne_none
  | case4 w slot d rest path hmark =>
    have := g.potential_skip_lt w slot d rest path
    rw [herror _ rfl]
    exact ⟨1, by omega, .closed hmark⟩
  | case5 w slot d rest path hmark ih =>
    obtain ⟨turns, hle, hturns⟩ := ih h.skip hok herror
    have := g.potential_skip_lt w slot d rest path
    exact ⟨turns + 1, by omega, hturns.skipped hmark⟩
  | case6 w slot d rest path hmark ih =>
    obtain ⟨turns, hle, hturns⟩ := ih (h.skip.enter hrange d.slot) hok herror
    have := g.potential_enter_lt w slot d rest path hmark
    exact ⟨turns + 1, by omega, hturns.entered hmark⟩

/-- Over the roots: a root that has been reached before costs no turn, and a fresh one is entered and
followed by `follow_turns`. Entering a root moves its cost from the slots that are unvisited to the path, so the
potential does not grow. -/
theorem foldlM_walkFrom_turns (roots : List Slot) (h : g.InRange w []) :
    ∃ turns ≤ g.potential w [],
      g.Turns roots w [] turns ((roots.foldlM g.walkFrom w).map Walk.order) := by
  induction roots generalizing w with
  | nil => exact ⟨0, Nat.zero_le _, .ended⟩
  | cons root roots ih =>
    rw [List.foldlM_cons, walkFrom]
    split
    · rename_i hmark
      have henter := h.enter hrange root
      obtain ⟨turns, hle, hturns⟩ := follow_turns hrange henter roots
        ((g.follow (w.enter root) [⟨root, g.succsOf root⟩] >>= fun w' =>
          roots.foldlM g.walkFrom w').map Walk.order)
        (fun w' hw' => by
          rw [hw']
          exact ih ((follow_inRange hrange _ henter).1 w' hw'))
        (fun e he => by
          rw [he]
          rfl)
      -- what the root contributes to the cost of unvisited slots is what its frame costs on the path
      have hset := g.unvisitedCost_set w.marks.toList 0 root (by simpa using hmark)
      rw [Nat.zero_add] at hset
      have hbegin : g.potential (w.enter root) [⟨root, g.succsOf root⟩] ≤ g.potential w [] := by
        simp only [potential, pathCost, Walk.enter, Array.toList_setIfInBounds]
        omega
      exact ⟨turns, by omega, hturns.begun hmark⟩
    · rename_i hmark
      obtain ⟨turns, hle, hturns⟩ := ih h
      exact ⟨turns, hle, hturns.passed hmark⟩

/-- What the walk returns is what the loop ends with after a bounded number of turns: the walk is the fold over
all roots, started with nothing visited. -/
theorem reverseTopologicalOrder_turns :
    ∃ turns ≤ g.potential (Walk.start g) [],
      g.Turns (List.range g.size) (Walk.start g) [] turns g.reverseTopologicalOrder := by
  -- the walk returns the order that the final state holds
  have hmap : g.reverseTopologicalOrder =
      ((List.range g.size).foldlM g.walkFrom (Walk.start g)).map Walk.order := by
    unfold reverseTopologicalOrder
    cases (List.range g.size).foldlM g.walkFrom (Walk.start g) <;> rfl
  rw [hmap]
  exact foldlM_walkFrom_turns hrange _ (InRange.start g)

end Bound

/-! ## Order or cycle

The walk was shown to end soundly (`reverseTopologicalOrder_endsSoundly`), to succeed on acyclic graphs and to
fail on cyclic ones. The theorem puts these together for the graph that inversion yields, so that its only
hypothesis is about the edges as they were added. -/

/-- **The walk decides acyclicity.** If the sources of all edges exist, the graph can be inverted, and over the
inverted graph the walk ends. It returns an order exactly if there is no directed cycle; the order lists every
slot once, and each after all of its successors. Otherwise it reports a slot that lies on a cycle. -/
theorem reverseTopologicalOrder_decides_acyclicity {g₀ : Graph}
    (hrange : ∀ e ∈ g₀.edges, e.source < g₀.size) :
    ∃ g, g₀.invert = .ok g ∧
      (∃ turns ≤ g.potential (Walk.start g) [],
        g.Turns (List.range g.size) (Walk.start g) [] turns g.reverseTopologicalOrder) ∧
      ((∃ order, g.reverseTopologicalOrder = .ok order) ↔ ¬ g.Cyclic) ∧
      (∀ order, g.reverseTopologicalOrder = .ok order →
        order.Perm (List.range g.size) ∧ g.SuccessorsFirst order) ∧
      ∀ e, g.reverseTopologicalOrder = .error e → ∃ slot, e = .dependencyCycle slot ∧ g.OnCycle slot := by
  -- inversion fails only at an edge whose source does not exist
  obtain ⟨g, hinv⟩ : ∃ g, g₀.invert = .ok g := by
    refine exists_invert_eq_ok ?_
    rintro source target ⟨d, hd, rfl⟩
    exact hrange (d.into target) (mem_edges_iff.mpr ⟨d, hd, rfl⟩)
  have hg := inverted_of_invert hinv
  refine ⟨g, hinv, reverseTopologicalOrder_turns fun slot d hd => ?_, ⟨?_, ?_⟩, ?_, ?_⟩
  · -- a successor is the target of an edge, and targets exist
    exact (hg.succs_iff.mp ⟨d, hd, rfl⟩).target_lt
  · rintro ⟨order, horder⟩
    exact not_cyclic_of_reverseTopologicalOrder hg horder
  · intro hacyclic
    obtain ⟨order, horder, _⟩ := reverseTopologicalOrder_of_acyclic hg hacyclic
    exact ⟨order, horder⟩
  · intro order horder
    exact order_of_reverseTopologicalOrder hg horder
  · intro e he
    -- the walk ends in one of two ways, and this is not the one with an order
    rcases reverseTopologicalOrder_endsSoundly hg with ⟨order, hok, _⟩ | ⟨slot, herror, hcycle⟩
    · cases hok.symm.trans he
    · cases herror.symm.trans he
      exact ⟨slot, rfl, hcycle⟩

/-- A diamond whose edges lead to lower slots, one of them twice. -/
def fallingDiamond : Graph :=
  Graph.empty.addNode.addNode.addNode.addNode.insertEdges
    [{ source := 3, target := 1, hazard := .raw }, { source := 3, target := 1, hazard := .waw },
     { source := 3, target := 2, hazard := .raw }, { source := 1, target := 0, hazard := .raw },
     { source := 2, target := 0, hazard := .war }]

/-- The diamond is put in order, and a loop is found after two slots have been finished. -/
theorem reverseTopologicalOrder_decides_fallingDiamond :
    (∀ e ∈ fallingDiamond.edges, e.source < fallingDiamond.size) ∧
    (∃ g, fallingDiamond.invert = .ok g ∧ g.reverseTopologicalOrder = .ok [0, 1, 2, 3] ∧ ¬ g.Cyclic) ∧
    (∀ e ∈ loopGraph.edges, e.source < loopGraph.size) ∧
    ∃ g, loopGraph.invert = .ok g ∧ g.reverseTopologicalOrder = .error (.dependencyCycle 2) ∧
      g.OnCycle 2 := by
  have hdiamond : ∀ e ∈ fallingDiamond.edges, e.source < fallingDiamond.size := by decide
  have hloop : ∀ e ∈ loopGraph.edges, e.source < loopGraph.size := by decide
  refine ⟨hdiamond, ?_, hloop, ?_⟩
  · obtain ⟨g, hinv, horder⟩ : ∃ g, fallingDiamond.invert = .ok g ∧
        g.reverseTopologicalOrder = .ok [0, 1, 2, 3] := ⟨_, rfl, by cbv⟩
    obtain ⟨_, hinv', _, hiff, _⟩ := reverseTopologicalOrder_decides_acyclicity hdiamond
    cases hinv.symm.trans hinv'
    exact ⟨g, hinv, horder, hiff.mp ⟨_, horder⟩⟩
  · obtain ⟨g, hinv, herror⟩ : ∃ g, loopGraph.invert = .ok g ∧
        g.reverseTopologicalOrder = .error (.dependencyCycle 2) := ⟨_, rfl, by cbv⟩
    obtain ⟨_, hinv', _, _, _, hcycle⟩ := reverseTopologicalOrder_decides_acyclicity hloop
    cases hinv.symm.trans hinv'
    obtain ⟨slot, hslot, hon⟩ := hcycle _ herror
    cases hslot
    exact ⟨g, hinv, herror, hon⟩

end Graph

end DualIssue
