import DualIssue.Report.Dot
import DualIssue.Report.EditDistance

/-!
# The journal

What scheduling reports on the way: each access and each dependence that it adds, instructions that
are not modeled, statistics of finished blocks, and drawings written. The journal is a function of the
work, so the work itself stays free of it.
-/

namespace DualIssue

inductive Level where
  | error
  | warn
  | debug
  | trace
  deriving DecidableEq, Repr

namespace Level

/-- The rank of a level, the most severe first. -/
def rank : Level → Nat
  | .error => 0
  | .warn => 1
  | .debug => 2
  | .trace => 3

def name : Level → String
  | .error => "ERROR"
  | .warn => "WARN"
  | .debug => "DEBUG"
  | .trace => "TRACE"

/-- Whether a journal takes messages of this level. One without a limit takes none. -/
def isKept (level : Level) (limit : Option Level) : Bool :=
  limit.any (level.rank ≤ ·.rank)

end Level

structure Message where
  level : Level
  text : String
  deriving DecidableEq, Repr

/-- The messages of this level or a more severe one. -/
def Message.upTo (level : Level) (messages : List Message) : List Message :=
  messages.filter fun m => m.level.isKept (some level)

/-! ### Recording -/

/-- The message about an instruction that the model does not cover. -/
def unmodeledMessage (inst : Instruction) : Message :=
  { level := .error
    text := "no machine model entry for " ++ inst.text ++ " (" ++ inst.shape.name ++ ")" }

def accessMessage (access : Access) (slot : Slot) : Message :=
  { level := .trace
    text := "slot " ++ toString slot ++ ": " ++ access.role.text ++ " " ++ access.resource.text }

def edgeMessage (e : Edge) : Message :=
  { level := .trace
    text := e.hazard.text ++ " " ++ toString e.source ++ " -> " ++ toString e.target
      ++ " (" ++ e.reason.text ++ ", " ++ toString e.latency ++ ")" }

/-- The edges that an attempt to add them gets to, a first one without target included. -/
def Graph.attempted (g : Graph) : List Edge → List Edge
  | [] => []
  | e :: rest => if e.target < g.size then e :: g.attempted rest else [e]

namespace Tracker

def accessMessages (t : Tracker) (access : Access) (slot : Slot) : List Message :=
  if access.resource.isTracked then
    accessMessage access slot :: (t.graph.attempted (t.edgesFor access slot)).map edgeMessage
  else []

/-- The messages of recording accesses of one slot, up to a fault. -/
def allAccessMessages (t : Tracker) (slot : Slot) : List Access → List Message
  | [] => []
  | access :: rest =>
    t.accessMessages access slot ++
      match t.record access slot with
      | .ok t => t.allAccessMessages slot rest
      | .error _ => []

def instructionMessages (t : Tracker) (inst : Instruction) : List Message :=
  (t.addNode inst.isMemoryLoad).allAccessMessages t.graph.size (recordedAccesses inst)

end Tracker

/-! ### Finished blocks -/

namespace BlockSchedule

/-- Size, length and reordering of a block. -/
def statistics (name : String) (s : BlockSchedule) : Except Fault (List Message) := do
  let cycles ← s.cycles
  return [
    { level := .debug
      text := "block " ++ name ++ ": pre-schedule size " ++ toString s.size
        ++ ", post-schedule size " ++ toString s.order.length ++ ", " ++ toString cycles
        ++ " cycles" },
    { level := .debug
      text := "block " ++ name ++ ": edit distance " ++ fixedText 2 (editDistance s.order)
        ++ "%" }]

/-- The statistics as a journal takes them. They are not computed, and so cannot fail, where the
journal would not keep them. -/
def statisticsUpTo (limit : Option Level) (name : String) (s : BlockSchedule) :
    Except Fault (List Message) :=
  if Level.debug.isKept limit then s.statistics name else .ok []

end BlockSchedule

/-- What a finished block reports: messages, and files with their names and contents. -/
structure Report where
  messages : List Message := []
  files : List (String × String) := []
  deriving DecidableEq, Repr

/-- The attempt to write a block's drawing. -/
def dumpReport (dir : DumpDir) (name : String) (s : BlockSchedule) : Except Fault Report := do
  let file := name ++ ".dot"
  let path := dir.file file
  let attempt : Message := { level := .debug, text := "dumping dependency graph to " ++ path }
  let drawing ← Dot.render name s
  if dir.present then
    return { messages := [attempt], files := [(file, drawing)] }
  else
    let failure : Message :=
      { level := .warn
        text := "could not write " ++ path ++ ": No such file or directory (os error 2)" }
    return { messages := [attempt, failure] }

/-- Statistics and drawing of a finished block, as far as the options ask for them. -/
def blockReport (options : Options) (name : String) (s : BlockSchedule) : Except Fault Report := do
  let statistics ← if options.statistics then s.statistics name else pure []
  match options.dumpDir with
  | none => return { messages := statistics }
  | some dir =>
    let dump ← dumpReport dir name s
    return { dump with messages := statistics ++ dump.messages }

/-! ### Whole blocks -/

/-- The messages of recording a block, up to the instruction that is refused. -/
def recordingMessages (model : MachineModel) (enabled : Bool) (t : Tracker) :
    List Instruction → List Message
  | [] => []
  | inst :: rest =>
    match model.entryOf inst with
    | .error _ => [unmodeledMessage inst]
    | .ok _ =>
      if inst.isDelimiter && !rest.isEmpty then []
      else if enabled then
        t.instructionMessages inst ++
          match t.recordInstruction inst with
          | .ok t => recordingMessages model enabled t rest
          | .error _ => []
      else recordingMessages model enabled t rest

/-- The messages of scheduling a whole block. -/
def scheduleMessages (model : MachineModel) (options : Options) (block : List Instruction) :
    List Message :=
  recordingMessages model options.enabled (.start options.latencies) block ++
    if options.enabled then
      match scheduleBlock model options block with
      | .ok s =>
        match blockReport options "0" s with
        | .ok report => report.messages
        | .error _ => []
      | .error _ => []
    else []

end DualIssue
