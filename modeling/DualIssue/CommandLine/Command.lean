import DualIssue.Options

/-!
# Commands

The arguments of the command line: one input file, flags, and settings with a value. A setting takes
`--name value` or `--name=value`; a value that stands apart may not look like an option. Nothing may
be given twice, and `--` ends the options.
-/

namespace DualIssue.CommandLine

/-- Options without a value. -/
inductive Flag where
  | noSchedule
  | stats
  deriving DecidableEq, Repr

def Flag.ofName? : String → Option Flag
  | "no-schedule" => some .noSchedule
  | "stats" => some .stats
  | _ => none

/-- Options with a value. -/
inductive Setting where
  | dotDir
  | agenStall
  | loadBlockedByStore
  | memoryLoad
  deriving DecidableEq, Repr

def Setting.ofName? : String → Option Setting
  | "dot-dir" => some .dotDir
  | "agen-stall" => some .agenStall
  | "load-blocked-by-store" => some .loadBlockedByStore
  | "memory-load" => some .memoryLoad
  | _ => none

/-- What the next argument can be. -/
inductive ArgPhase where
  /-- An option or an input. -/
  | any
  /-- The value of a setting. -/
  | value (setting : Setting)
  /-- An input, whatever it looks like. -/
  | inputOnly
  deriving DecidableEq, Repr

/-- The arguments read so far. -/
structure Draft where
  phase : ArgPhase := .any
  inputs : List String := []
  flags : List Flag := []
  settings : List (Setting × String) := []
  deriving DecidableEq, Repr

namespace Draft

def setting? (d : Draft) (setting : Setting) : Option String :=
  (d.settings.find? fun entry => entry.1 = setting).map (·.2)

/-- Takes an input file. There is only one. -/
def addInput (d : Draft) (input : String) : Option Draft :=
  if d.inputs.isEmpty then some { d with inputs := [input] } else none

/-- Takes a flag, once. -/
def addFlag (d : Draft) (flag : Flag) : Option Draft :=
  if flag ∈ d.flags then none else some { d with flags := flag :: d.flags }

/-- Takes a setting, once. -/
def addSetting (d : Draft) (setting : Setting) (value : String) : Option Draft :=
  if (d.setting? setting).isSome then none
  else some { d with phase := .any, settings := (setting, value) :: d.settings }

/-- Takes the text after two dashes: a name, and perhaps a value after an equals sign. -/
def addOption (d : Draft) (body : List Char) : Option Draft :=
  let (name, rest) := body.span (· ≠ '=')
  let name := String.ofList name
  match Flag.ofName? name, Setting.ofName? name, rest with
  | some flag, _, [] => d.addFlag flag
  | none, some setting, [] => some { d with phase := .value setting }
  | none, some setting, _ :: value => d.addSetting setting (String.ofList value)
  | _, _, _ => none

/-- Takes one argument. A single dash is no option. -/
def add (d : Draft) (arg : String) : Option Draft :=
  match d.phase, arg.toList with
  | .inputOnly, _ => d.addInput arg
  | .any, ['-', '-'] => some { d with phase := .inputOnly }
  | .any, '-' :: '-' :: body => d.addOption body
  | .value _, '-' :: _ :: _ => none
  | .any, '-' :: _ :: _ => none
  | .value setting, _ => d.addSetting setting arg
  | .any, _ => d.addInput arg

end Draft

/-! ### Values -/

def decimal? (digits : List Char) : Option Nat :=
  if digits.isEmpty || !digits.all Char.isDigit then none
  else some (digits.foldl (fun n c => n * 10 + (c.toNat - '0'.toNat)) 0)

/-- A cycle count: decimal digits with an optional sign, between zero and the largest count. -/
def cycles? (s : String) : Option Nat :=
  match s.toList with
  | '+' :: digits => (decimal? digits).filter (· ≤ 4294967295)
  | '-' :: digits => (decimal? digits).filter (· = 0)
  | digits => (decimal? digits).filter (· ≤ 4294967295)

/-- A path, which is not empty. -/
def path? (s : String) : Option String := if s.isEmpty then none else some s

/-- What a setting that was not given leaves open, and one that was given must make sense of. -/
def valueOf? {α : Type} (read : String → Option α) : Option String → Option (Option α)
  | none => some none
  | some s => (read s).map some

/-! ### Commands -/

/-- What the command line asks for. -/
structure Command where
  input : String
  noSchedule : Bool := false
  dotDir : Option String := none
  agenStall : Option Nat := none
  loadBlockedByStore : Option Nat := none
  memoryLoad : Option Nat := none
  stats : Bool := false
  deriving DecidableEq, Repr

/-- The command that complete arguments stand for. -/
def Draft.command? (d : Draft) : Option Command :=
  match d.phase, d.inputs with
  | .value _, _ => none
  | _, [input] => do
    let input ← path? input
    let dotDir ← valueOf? path? (d.setting? .dotDir)
    let agenStall ← valueOf? cycles? (d.setting? .agenStall)
    let loadBlockedByStore ← valueOf? cycles? (d.setting? .loadBlockedByStore)
    let memoryLoad ← valueOf? cycles? (d.setting? .memoryLoad)
    return {
      input, dotDir, agenStall, loadBlockedByStore, memoryLoad
      noSchedule := .noSchedule ∈ d.flags
      stats := .stats ∈ d.flags }
  | _, _ => none

namespace Command

/-- The command that arguments stand for; `none` if they are no proper command. -/
def parse? (args : List String) : Option Command := do
  let draft ← args.foldlM Draft.add {}
  draft.command?

/-- The table with a cost replaced if one is given. -/
def override (table : LatencyTable) (reason : LatencyReason) : Option Nat → LatencyTable
  | some cycles => table.set reason cycles
  | none => table

/-- The edge latencies: the usual ones where the command does not say otherwise. -/
def latencies (c : Command) : LatencyTable :=
  let table := override {} .agenStall c.agenStall
  let table := override table .loadBlockedByStore c.loadBlockedByStore
  override table .memoryLoad c.memoryLoad

/-- The options of the session that carries the command out. -/
def options (c : Command) : Options :=
  { enabled := !c.noSchedule
    latencies := c.latencies
    statistics := c.stats
    dumpDir := c.dotDir.map fun path => { path } }

end Command

end DualIssue.CommandLine
