import DualIssue.Graph.CriticalPath
import DualIssue.ListSchedule
import DualIssue.Options
import DualIssue.Tracker

/-!
# Block schedules

The schedule of a whole block: its instructions are looked up in the machine model, their dependences
tracked, their paths measured, and then they are issued. With reordering switched off the schedule is
the program order, without times and without a graph.
-/

namespace DualIssue

structure BlockSchedule where
  /-- The slots in issue order. -/
  order : List Slot
  /-- The records in program order. -/
  records : Array Record
  graph : Graph
  deriving DecidableEq, Repr

namespace BlockSchedule

def withPaths (records : Array Record) (paths : Array Nat) : Array Record :=
  records.mapIdx fun slot r =>
    match paths[slot]? with
    | some path => { r with longestPath := some path }
    | none => r

/-- Schedules the block that a tracker has recorded. -/
def ofTracker (t : Tracker) (records : Array Record) : Except ScheduleError BlockSchedule := do
  let graph ← liftFault t.finish
  let paths ← graph.longestPaths (records.toList.map (·.latency))
  match listSchedule graph (withPaths records paths) with
  | (records, .ok order) => return { order, records, graph }
  | (_, .error e) => throw e

/-- Program order, with an empty graph and no issue times. -/
def unscheduled (records : Array Record) : BlockSchedule :=
  { order := records.toList.map (·.slot), records, graph := .empty }

def size (s : BlockSchedule) : Nat := s.records.size

/-- The records in issue order. Every slot of the order must have one. -/
def issued (s : BlockSchedule) : Except Fault (List Record) :=
  s.order.mapM fun slot =>
    match s.records[slot]? with
    | some record => .ok record
    | none => .error .missingSlot

/-- The last cycle in which an instruction issues. -/
def lastCycle (records : List Record) : Option Nat :=
  (records.filterMap (·.issueTime)).max?

/-- Cycles from the first issue to the last, both counted; zero if nothing has issued. -/
def cycles (s : BlockSchedule) : Except Fault Nat :=
  match lastCycle s.records.toList with
  | some last => checkCycle (last + 1)
  | none => .ok 0

end BlockSchedule

/-- What the model says of an instruction. -/
def MachineModel.entryOf (model : MachineModel) (inst : Instruction) :
    Except ScheduleError MachineEntry :=
  match model inst.mnemonic inst.shape with
  | some entry => .ok entry
  | none => .error (.unmodeled inst.mnemonic inst.shape)

/-- The records of a block whose first instruction is in `slot`. Every instruction must be modeled,
and only the last may be a delimiter. -/
def enlist (model : MachineModel) : Slot → List Instruction → Except ScheduleError (List Record)
  | _, [] => .ok []
  | slot, inst :: rest => do
    let entry ← model.entryOf inst
    if inst.isDelimiter && !rest.isEmpty then
      throw (.delimiterNotLast slot)
    let records ← enlist model (slot + 1) rest
    return Record.ofEntry slot inst entry :: records

/-- The schedule of a whole block. With scheduling off it is program order, after the same checks of the block. -/
def scheduleBlock (model : MachineModel) (options : Options) (block : List Instruction) :
    Except ScheduleError BlockSchedule := do
  let records ← enlist model 0 block
  if options.enabled then
    let t ← liftFault (Tracker.ofBlock options.latencies block)
    BlockSchedule.ofTracker t records.toArray
  else return .unscheduled records.toArray

end DualIssue
