import DualIssue.Fault
import DualIssue.Latency

/-!
# Dependence graphs

A graph over the slots of a block. Each node lists the dependences that come into it, in the order in
which they were added; `invert` derives from these the lists of dependences that go out.
-/

namespace DualIssue

/-- Why two instructions must keep their order: read after write, write after write, write after
read. -/
inductive Hazard where
  | raw
  | waw
  | war
  deriving DecidableEq, Repr

def Hazard.text : Hazard → String
  | .raw => "RAW"
  | .waw => "WAW"
  | .war => "WAR"

/-- What a dependence says apart from its ends. -/
structure EdgeLabel where
  hazard : Hazard
  reason : LatencyReason := .plain
  latency : Nat := 0
  deriving DecidableEq, Repr

/-- One end of an edge, in the list of the other: in a list of predecessors `slot` is the source, in a
list of successors the target. -/
structure Dependency extends EdgeLabel where
  slot : Slot
  deriving DecidableEq, Repr

/-- An edge with both ends. -/
structure Edge extends EdgeLabel where
  source : Slot
  target : Slot
  deriving DecidableEq, Repr

namespace Edge

/-- The edge as its target lists it. -/
def incoming (e : Edge) : Dependency := { e.toEdgeLabel with slot := e.source }

/-- The edge as its source lists it. -/
def outgoing (e : Edge) : Dependency := { e.toEdgeLabel with slot := e.target }

end Edge

/-- The edge that a dependence in the list of `target` stands for. -/
def Dependency.into (target : Slot) (d : Dependency) : Edge :=
  { d.toEdgeLabel with source := d.slot, target }

structure Graph where
  preds : Array (List Dependency) := #[]
  succs : Array (List Dependency) := #[]
  deriving DecidableEq, Repr

namespace Graph

def empty : Graph := {}

def size (g : Graph) : Nat := g.preds.size

/-- The graph with one more node, whose slot is the old size. -/
def addNode (g : Graph) : Graph :=
  { preds := g.preds.push [], succs := g.succs.push [] }

/-- The dependences into a slot, none if the slot does not exist. -/
def predsOf (g : Graph) (slot : Slot) : List Dependency := g.preds.getD slot []

/-- The dependences out of a slot, as the last inversion found them. -/
def succsOf (g : Graph) (slot : Slot) : List Dependency := g.succs.getD slot []

/-- The dependences into a slot that must exist. -/
def predecessors (g : Graph) (slot : Slot) : Except Fault (List Dependency) :=
  if slot < g.preds.size then .ok (g.predsOf slot) else .error .missingSlot

/-- The dependences out of a slot that must exist. -/
def successors (g : Graph) (slot : Slot) : Except Fault (List Dependency) :=
  if slot < g.succs.size then .ok (g.succsOf slot) else .error .missingSlot

/-- Lists an edge at its target; nothing happens if the target does not exist. -/
def insertEdge (g : Graph) (e : Edge) : Graph :=
  { g with preds := g.preds.modify e.target (· ++ [e.incoming]) }

/-- Adds an edge to a target that must exist. The source is not looked at. -/
def addEdge (g : Graph) (e : Edge) : Except Fault Graph :=
  if e.target < g.size then .ok (g.insertEdge e) else .error .missingSlot

def addEdges (g : Graph) (edges : List Edge) : Except Fault Graph :=
  edges.foldlM addEdge g

/-- Every edge: by target, and in a target's own order. -/
def edges (g : Graph) : List Edge :=
  (List.range g.size).flatMap fun target => (g.predsOf target).map (·.into target)

def hasEdge (g : Graph) (source target : Slot) (hazard : Hazard) : Bool :=
  (g.predsOf target).any fun d => d.slot = source && d.hazard = hazard

/-- The outgoing list of a slot: its edges in the order of `edges`. -/
def outgoingOf (edges : List Edge) (slot : Slot) : List Dependency :=
  (edges.filter (·.source = slot)).map Edge.outgoing

/-- The graph with all successor lists rebuilt from the predecessor lists. Every source must exist. -/
def invert (g : Graph) : Except Fault Graph :=
  let edges := g.edges
  if edges.all (·.source < g.size) then
    .ok { g with succs := ((List.range g.size).map (outgoingOf edges)).toArray }
  else .error .missingSlot

/-! ### Size and predecessors of a growing graph -/

@[simp] theorem size_empty : empty.size = 0 := rfl

@[simp] theorem size_addNode (g : Graph) : g.addNode.size = g.size + 1 := by
  simp [size, addNode]

@[simp] theorem size_insertEdge (g : Graph) (e : Edge) : (g.insertEdge e).size = g.size := by
  simp [size, insertEdge]

/-- A new node has no predecessors, and the others keep theirs. -/
@[simp] theorem predsOf_addNode (g : Graph) (slot : Slot) :
    g.addNode.predsOf slot = g.predsOf slot := by
  simp only [predsOf, addNode, Array.getD_eq_getD_getElem?, Array.getElem?_push]
  split <;> simp_all

/-- An edge joins the end of its target's list and no other. -/
theorem predsOf_insertEdge (g : Graph) (e : Edge) (slot : Slot) :
    (g.insertEdge e).predsOf slot =
      if slot = e.target ∧ e.target < g.size then g.predsOf slot ++ [e.incoming]
      else g.predsOf slot := by
  simp only [predsOf, insertEdge, size, Array.getD_eq_getD_getElem?, Array.getElem?_modify]
  by_cases ht : e.target = slot
  · subst ht
    by_cases hs : e.target < g.preds.size <;> simp [hs]
  · simp [ht, Ne.symm ht]

end Graph

end DualIssue
