import DualIssue.Access
import DualIssue.Graph.Basic

/-!
# Dependence tracking

Instructions are recorded in program order. For each resource the tracker knows the slot that last
wrote it and the slots that have read it since, so a new access depends on these only; older accesses
are ordered through them.

The flags are kept apart. Most instructions write them and few read them, so writers are left
unordered until a reader shows which one matters: the last one. Then the earlier ones are ordered
before it. What is still unordered at the end of the block is settled by `fixLiveOut`.
-/

namespace DualIssue

abbrev ResourceMap (α : Type) := Resource → α

def ResourceMap.set {α : Type} (map : ResourceMap α) (resource : Resource) (value : α) :
    ResourceMap α :=
  fun r => if r = resource then value else map r

@[simp] theorem ResourceMap.set_self {α : Type} (map : ResourceMap α) (resource : Resource)
    (value : α) : map.set resource value resource = value := by
  simp [ResourceMap.set]

@[simp] theorem ResourceMap.set_of_ne {α : Type} (map : ResourceMap α) {resource other : Resource}
    (value : α) (h : other ≠ resource) : map.set resource value other = map other := by
  simp [ResourceMap.set, h]

/-- What is known about the block recorded so far. -/
structure Tracker where
  latencies : LatencyTable
  graph : Graph := .empty
  /-- The last writer of a resource. -/
  producer : ResourceMap (Option Slot) := fun _ => none
  /-- The readers of a resource since its last write. -/
  users : ResourceMap (List Slot) := fun _ => []
  /-- Writers of the flags not yet ordered against each other; the last is the current one. -/
  flagWriters : List Slot := []
  /-- The readers of the flags since their last write. -/
  flagReaders : List Slot := []
  /-- The slots that load from memory. -/
  loads : List Slot := []

namespace Tracker

def start (latencies : LatencyTable) : Tracker := { latencies }

/-- Forgets the block and keeps the latencies. -/
def reset (t : Tracker) : Tracker := start t.latencies

/-- The tracker with one more slot, which may be a load from memory. -/
def addNode (t : Tracker) (isLoad : Bool) : Tracker :=
  { t with
    graph := t.graph.addNode
    loads := if isLoad then t.loads ++ [t.graph.size] else t.loads }

/-! ### Edges that an access asks for -/

/-- The label of an edge of this hazard, with the cost of its reason. -/
def label (t : Tracker) (hazard : Hazard) (reason : LatencyReason) : EdgeLabel :=
  { hazard, reason, latency := t.latencies.get reason }

/-- The label of a read. A consumer of a load waits for it if that costs more than its own reason. -/
def readLabel (t : Tracker) (producer : Slot) (reason : LatencyReason) : EdgeLabel :=
  if producer ∈ t.loads ∧ t.latencies.get reason < t.latencies.get .memoryLoad then
    t.label .raw .memoryLoad
  else t.label .raw reason

def edge (label : EdgeLabel) (source target : Slot) : Edge := { label with source, target }

/-- A read depends on the last writer. -/
def readEdges (t : Tracker) (access : Access) (slot : Slot) : List Edge :=
  match t.producer access.resource with
  | some producer => [edge (t.readLabel producer access.reason) producer slot]
  | none => []

/-- A write depends on the readers of the old value, itself not excepted, and on its writer. -/
def writeEdges (t : Tracker) (access : Access) (slot : Slot) : List Edge :=
  let readers := t.users access.resource ++ if access.role.reads then [slot] else []
  readers.map (edge (t.label .war access.reason) · slot)
    ++ (t.producer access.resource).toList.map (edge (t.label .waw access.reason) · slot)

/-- A read of the flags depends on their last writer, before which the earlier ones are put. -/
def flagReadEdges (t : Tracker) (reason : LatencyReason) (slot : Slot) : List Edge :=
  match t.flagWriters.getLast? with
  | some last =>
    edge (t.label .raw reason) last slot
      :: t.flagWriters.dropLast.map (edge (t.label .waw reason) · last)
  | none => []

/-- A write of the flags depends on the readers of the old ones. -/
def flagWriteEdges (t : Tracker) (access : Access) (slot : Slot) : List Edge :=
  let readers := t.flagReaders ++ if access.role.reads then [slot] else []
  readers.map (edge (t.label .war access.reason) · slot)

/-- All edges that an access by `slot` adds, in order. No slot depends on itself. -/
def edgesFor (t : Tracker) (access : Access) (slot : Slot) : List Edge :=
  let wanted :=
    if access.resource = .flags then
      (if access.role.reads then t.flagReadEdges access.reason slot else [])
        ++ (if access.role.writes then t.flagWriteEdges access slot else [])
    else
      (if access.role.reads then t.readEdges access slot else [])
        ++ (if access.role.writes then t.writeEdges access slot else [])
  wanted.filter fun e => e.source ≠ e.target

/-! ### Recording -/

/-- A reader joins the users; a writer becomes the producer of a value that has no users yet. -/
def noteAccess (t : Tracker) (access : Access) (slot : Slot) : Tracker :=
  if access.role.writes then
    { t with
      producer := t.producer.set access.resource (some slot)
      users := t.users.set access.resource [] }
  else
    { t with users := t.users.set access.resource (t.users access.resource ++ [slot]) }

/-- A reader leaves the last writer as the only one and joins the readers; a writer joins the writers
of flags that nobody has read yet. -/
def noteFlags (t : Tracker) (role : Role) (slot : Slot) : Tracker :=
  let writers := if role.reads then t.flagWriters.getLast?.toList else t.flagWriters
  if role.writes then { t with flagWriters := writers ++ [slot], flagReaders := [] }
  else { t with flagWriters := writers, flagReaders := t.flagReaders ++ [slot] }

/-- The tables after an access, the graph left as it is. -/
def note (t : Tracker) (access : Access) (slot : Slot) : Tracker :=
  if access.resource = .flags then t.noteFlags access.role slot else t.noteAccess access slot

/-- Records an access of the instruction in `slot`. -/
def record (t : Tracker) (access : Access) (slot : Slot) : Except Fault Tracker :=
  if access.resource.isTracked then do
    let graph ← t.graph.addEdges (t.edgesFor access slot)
    return { t.note access slot with graph }
  else .ok t

/-- A volatile instruction takes part in the order of all memory that cannot be told apart. -/
def volatileAccess : Access := .plain .memory .useDefine

/-- Everything that recording an instruction records. -/
def recordedAccesses (inst : Instruction) : List Access :=
  inst.accesses ++ if inst.isVolatile then [volatileAccess] else []

/-- Records accesses of one slot from the first to the last. -/
def recordAll (t : Tracker) (accesses : List Access) (slot : Slot) : Except Fault Tracker :=
  accesses.foldlM (fun t access => t.record access slot) t

/-- Records an instruction in the next slot, which is the old size of the graph. -/
def recordInstruction (t : Tracker) (inst : Instruction) : Except Fault Tracker :=
  (t.addNode inst.isMemoryLoad).recordAll (recordedAccesses inst) t.graph.size

/-- Records a block into a new tracker. -/
def ofBlock (latencies : LatencyTable) (block : List Instruction) : Except Fault Tracker :=
  block.foldlM recordInstruction (start latencies)

/-! ### Closing the block -/

/-- The edges that keep the last writer of the flags last. -/
def liveOutEdges (t : Tracker) : List Edge :=
  match t.flagWriters.getLast? with
  | some last => t.flagWriters.dropLast.map (edge (t.label .waw .plain) · last)
  | none => []

/-- Orders the writers of the flags that nobody has read, so that the last one stays live out. Of the
pending writers the first is kept. -/
def fixLiveOut (t : Tracker) : Except Fault Tracker := do
  let graph ← t.graph.addEdges t.liveOutEdges
  return { t with graph, flagWriters := t.flagWriters.take 1 }

/-- The graph of the closed block, with its successor lists. -/
def finish (t : Tracker) : Except Fault Graph := do
  let t ← t.fixLiveOut
  t.graph.invert

end Tracker

end DualIssue
