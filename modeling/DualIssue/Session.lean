import DualIssue.Encoder
import DualIssue.Report.Journal

/-!
# Sessions

A session stands between instruction selection and the encoder. Instructions are appended in program
order; a delimiter, or a flush, closes the open block, schedules it and hands it to the encoder in
issue order. With reordering switched off every instruction goes to the encoder at once.

Every operation returns the session it leaves behind, also where it fails.
-/

namespace DualIssue

structure Session where
  model : MachineModel
  encoder : Encoder
  options : Options := {}
  /-- The dependences of the open block. -/
  tracker : Tracker
  /-- The records of the open block. -/
  pending : Array Record := #[]
  /-- The number of blocks closed so far. -/
  blocks : Nat := 0
  /-- The next slot while reordering is switched off. -/
  nextSlot : Slot := 0
  /-- What has been reported, first to last. -/
  journal : List Message := []
  /-- The drawings written, first to last. -/
  files : List (String × String) := []

namespace Session

def start (model : MachineModel) (encoder : Encoder) (options : Options := {}) : Session :=
  { model, encoder, options, tracker := .start options.latencies }

/-- The session with more in its journal. -/
def log (s : Session) (messages : List Message) : Session :=
  { s with journal := s.journal ++ messages }

/-- Hands a finished block to the journal and to the encoder. -/
def deliver (s : Session) (name : String) (schedule : BlockSchedule) :
    Session × Except ScheduleError Unit :=
  match blockReport s.options name schedule, schedule.issued with
  | .ok report, .ok issued =>
    let s := { s.log report.messages with files := s.files ++ report.files }
    let (encoder, result) := s.encoder.emitAll issued
    ({ s with encoder }, result.mapError .emission)
  | .error f, _ | _, .error f => (s, .error (.fault f))

/-- Schedules the open block and emits it. The next block starts afresh whether or not this one could
be scheduled and emitted. -/
def flush (s : Session) : Session × Except ScheduleError Unit :=
  if s.pending.isEmpty then ({ s with nextSlot := 0 }, .ok ())
  else
    let closed :=
      { s with
        tracker := .start s.options.latencies
        pending := #[]
        blocks := s.blocks + 1
        nextSlot := 0 }
    match BlockSchedule.ofTracker s.tracker s.pending with
    | .ok schedule => closed.deliver (toString s.blocks) schedule
    | .error e => (closed, .error e)

def discard (s : Session) : Session :=
  { s with tracker := s.tracker.reset, pending := #[], nextSlot := 0 }

/-- Sends an instruction straight to the encoder. -/
def passThrough (s : Session) (inst : Instruction) (entry : MachineEntry) :
    Session × Except ScheduleError Slot :=
  let slot := s.nextSlot
  let s := { s with nextSlot := if inst.isDelimiter then 0 else slot + 1 }
  match s.encoder.emit (.ofEntry slot inst entry) with
  | .ok encoder => ({ s with encoder }, .ok slot)
  | .error e => (s, .error (.emission e))

/-- Adds an instruction to the open block, which a delimiter closes. -/
def enqueue (s : Session) (inst : Instruction) (entry : MachineEntry) :
    Session × Except ScheduleError Slot :=
  let slot := s.tracker.graph.size
  let s := s.log (s.tracker.instructionMessages inst)
  match s.tracker.recordInstruction inst with
  | .error f => (s, .error (.fault f))
  | .ok tracker =>
    let s := { s with tracker, pending := s.pending.push (.ofEntry slot inst entry) }
    if inst.isDelimiter then
      let (s, result) := s.flush
      (s, result.map fun () => slot)
    else (s, .ok slot)

/-- Appends an instruction. One that the model does not cover is refused and changes nothing but the
journal. -/
def append (s : Session) (inst : Instruction) : Session × Except ScheduleError Slot :=
  match s.model.entryOf inst with
  | .error e => (s.log [unmodeledMessage inst], .error e)
  | .ok entry =>
    if s.options.enabled then s.enqueue inst entry else s.passThrough inst entry

/-- Appends instructions until one fails. -/
def appendAll (s : Session) : List Instruction → Session × Except ScheduleError Unit
  | [] => (s, .ok ())
  | inst :: rest =>
    match s.append inst with
    | (s, .ok _) => s.appendAll rest
    | (s, .error e) => (s, .error e)

/-! ### Description -/

def boolText (b : Bool) : String := if b then "true" else "false"

def dumpDirText : Option DumpDir → String
  | none => "None"
  | some dir => "Some(\"" ++ dir.path ++ "\")"

def optionsText (options : Options) : String :=
  "SchedulerOptions \x7b enabled: " ++ boolText options.enabled
    ++ ", latencies: LatencyTable \x7b none: " ++ toString options.latencies.plain
    ++ ", agen_stall: " ++ toString options.latencies.agenStall
    ++ ", load_blocked_by_store: " ++ toString options.latencies.loadBlockedByStore
    ++ ", memory_load: " ++ toString options.latencies.memoryLoad
    ++ " \x7d, statistics: " ++ boolText options.statistics
    ++ ", dump_dir: " ++ dumpDirText options.dumpDir ++ " \x7d"

/-- Options, pending instructions and blocks in one line. -/
def describe (s : Session) : String :=
  "Scheduler \x7b options: " ++ optionsText s.options
    ++ ", pending: " ++ toString s.pending.size
    ++ ", blocks: " ++ toString s.blocks ++ " \x7d"

end Session

end DualIssue
