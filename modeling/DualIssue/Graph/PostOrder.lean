import DualIssue.Error
import DualIssue.Graph.Basic

/-!
# Reverse topological order

A depth-first walk over the successor lists that lists every slot after all of its successors, or finds
a cycle. The path from the root to the current slot is an explicit list of frames, so a long chain of
dependences takes no call stack. The walk ends because every step either leaves a frame smaller or
turns an unvisited slot into a frame; `potential` measures both.
-/

namespace DualIssue

/-- How far the walk has come with a slot. -/
inductive Mark where
  | unvisited
  | inProgress
  | done
  deriving DecidableEq, Repr

/-- The state of the walk: a mark for each slot, and the finished slots, earliest first. -/
structure Walk where
  marks : Array Mark
  order : List Slot := []
  deriving DecidableEq, Repr

/-- A slot on the current path, with the edges out of it that are still to be followed. -/
structure Frame where
  slot : Slot
  rest : List Dependency
  deriving DecidableEq, Repr

namespace Walk

def start (g : Graph) : Walk := { marks := Array.replicate g.size .unvisited }

/-- The slot is on the current path from now on. -/
def enter (w : Walk) (slot : Slot) : Walk :=
  { w with marks := w.marks.setIfInBounds slot .inProgress }

/-- All successors of the slot are finished, and now the slot is. -/
def finish (w : Walk) (slot : Slot) : Walk :=
  { marks := w.marks.setIfInBounds slot .done, order := w.order ++ [slot] }

end Walk

/-! ### The measure of the walk -/

/-- What the unvisited slots among `marks` can still cost, the first mark being that of `slot`: each
edge is followed once, and entering and leaving the slot take two more. -/
def Graph.unvisitedCost (g : Graph) (slot : Slot) : List Mark → Nat
  | [] => 0
  | mark :: marks =>
    (if mark = .unvisited then (g.succsOf slot).length + 2 else 0)
      + g.unvisitedCost (slot + 1) marks

/-- What the frames of the current path can still cost. -/
def pathCost : List Frame → Nat
  | [] => 0
  | frame :: path => frame.rest.length + 1 + pathCost path

/-- A bound on the remaining steps. -/
def Graph.potential (g : Graph) (w : Walk) (path : List Frame) : Nat :=
  g.unvisitedCost 0 w.marks.toList + pathCost path

theorem Graph.unvisitedCost_set (g : Graph) (marks : List Mark) (first i : Nat)
    (h : marks[i]? = some .unvisited) :
    g.unvisitedCost first (marks.set i .inProgress) + ((g.succsOf (first + i)).length + 2)
      = g.unvisitedCost first marks := by
  induction marks generalizing first i with
  | nil => simp at h
  | cons mark marks ih =>
    cases i with
    | zero =>
      simp only [List.getElem?_cons_zero, Option.some.injEq] at h
      subst h
      simp [unvisitedCost]
      omega
    | succ i =>
      have := ih (first + 1) i (by simpa using h)
      simp only [List.set_cons_succ, unvisitedCost]
      have hslot : first + 1 + i = first + (i + 1) := by omega
      rw [hslot] at this
      omega

theorem Graph.unvisitedCost_set_done_le (g : Graph) (marks : List Mark) (first i : Nat) :
    g.unvisitedCost first (marks.set i .done) ≤ g.unvisitedCost first marks := by
  induction marks generalizing first i with
  | nil => simp
  | cons mark marks ih =>
    cases i with
    | zero => simp [unvisitedCost]
    | succ i =>
      have := ih (first + 1) i
      simp only [List.set_cons_succ, unvisitedCost]
      omega

theorem Graph.potential_finish_lt (g : Graph) (w : Walk) (slot : Slot) (path : List Frame) :
    g.potential (w.finish slot) path < g.potential w (⟨slot, []⟩ :: path) := by
  have := g.unvisitedCost_set_done_le w.marks.toList 0 slot
  simp only [potential, pathCost, Walk.finish, Array.toList_setIfInBounds, List.length_nil]
  omega

theorem Graph.potential_enter_lt (g : Graph) (w : Walk) (slot : Slot) (d : Dependency)
    (rest : List Dependency) (path : List Frame) (h : w.marks[d.slot]? = some .unvisited) :
    g.potential (w.enter d.slot) (⟨d.slot, g.succsOf d.slot⟩ :: ⟨slot, rest⟩ :: path)
      < g.potential w (⟨slot, d :: rest⟩ :: path) := by
  have := g.unvisitedCost_set w.marks.toList 0 d.slot (by simpa using h)
  simp only [Nat.zero_add] at this
  simp only [potential, pathCost, Walk.enter, Array.toList_setIfInBounds, List.length_cons]
  omega

theorem Graph.potential_skip_lt (g : Graph) (w : Walk) (slot : Slot) (d : Dependency)
    (rest : List Dependency) (path : List Frame) :
    g.potential w (⟨slot, rest⟩ :: path) < g.potential w (⟨slot, d :: rest⟩ :: path) := by
  simp only [potential, pathCost, List.length_cons]
  omega

/-! ### The walk -/

/-- Follows the edges of the current path until all of its slots are finished. An edge back into the
path closes a cycle. -/
def Graph.follow (g : Graph) (w : Walk) (path : List Frame) : Except ScheduleError Walk :=
  match path with
  | [] => .ok w
  | ⟨slot, []⟩ :: path => g.follow (w.finish slot) path
  | ⟨slot, d :: rest⟩ :: path =>
    match _h : w.marks[d.slot]? with
    | none => .error (.fault .missingSlot)
    | some .inProgress => .error (.dependencyCycle d.slot)
    | some .done => g.follow w (⟨slot, rest⟩ :: path)
    | some .unvisited =>
      g.follow (w.enter d.slot) (⟨d.slot, g.succsOf d.slot⟩ :: ⟨slot, rest⟩ :: path)
termination_by g.potential w path
decreasing_by
  · exact g.potential_finish_lt w slot path
  · exact g.potential_skip_lt w slot d rest path
  · exact g.potential_enter_lt w slot d rest path _h

/-- Walks from a root, unless an earlier root has reached it. -/
def Graph.walkFrom (g : Graph) (w : Walk) (root : Slot) : Except ScheduleError Walk :=
  if w.marks[root]? = some .unvisited then g.follow (w.enter root) [⟨root, g.succsOf root⟩]
  else .ok w

/-- Every slot after all of its successors: depth first from each root in slot order. -/
def Graph.reverseTopologicalOrder (g : Graph) : Except ScheduleError (List Slot) := do
  let w ← (List.range g.size).foldlM g.walkFrom (Walk.start g)
  return w.order

end DualIssue
