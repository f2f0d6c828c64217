import DualIssue.CommandLine.Command
import DualIssue.CommandLine.Host
import DualIssue.CommandLine.Listing
import DualIssue.Instruction.Codec
import DualIssue.Machine.Atom
import DualIssue.Session

/-!
# Running a command

Reads a block, schedules it for the Atom core, writes the drawings that are asked for and lists the
result. Files are left to a `Host`; everything else is a function.
-/

namespace DualIssue.CommandLine

inductive Failure where
  | usage
  | unreadableInput
  | malformedInput
  | noInstructions (input : String)
  | noDirectory
  | schedule (error : ScheduleError)
  deriving DecidableEq, Repr

namespace Failure

/-- The exit code of a failure: wrong usage and faults stand out. -/
def exitCode : Failure → Nat
  | .usage => 2
  | .schedule (.fault _) => 101
  | _ => 1

def message : Failure → String
  | .usage => "wrong usage"
  | .unreadableInput => "the input cannot be read"
  | .malformedInput => "the input is not a block of instructions"
  | .noInstructions input => input ++ " contains no instructions"
  | .noDirectory => "the directory for drawings cannot be created"
  | .schedule error => error.message

end Failure

/-- What a command leaves behind: its listing or a failure, and the drawings of all blocks that were
scheduled, also before a failure. -/
structure Outcome where
  result : Except Failure String
  files : List (String × String) := []

namespace Outcome

def exitCode (o : Outcome) : Nat :=
  match o.result with
  | .ok _ => 0
  | .error failure => failure.exitCode

/-- What goes to standard output, which is nothing after a failure. -/
def output (o : Outcome) : String :=
  match o.result with
  | .ok text => text
  | .error _ => ""

end Outcome

/-- Appends a whole program to a session and closes its last block. -/
def feed (s : Session) (program : List Instruction) : Session × Except ScheduleError Unit :=
  match s.appendAll program with
  | (s, .ok ()) => s.flush
  | (s, .error e) => (s, .error e)

namespace Command

/-- Schedules a program and lists what was emitted. -/
def schedule (c : Command) (program : List Instruction) : Outcome :=
  let (s, result) := feed (.start Atom.model .unbounded c.options) program
  match result with
  | .ok () => { result := .ok (listing c.stats s.encoder.emitted), files := s.files }
  | .error e => { result := .error (.schedule e), files := s.files }

/-- The instructions of the input, of which there must be some. -/
def program (c : Command) : Option String → Except Failure (List Instruction)
  | none => .error .unreadableInput
  | some source =>
    match Instruction.loadBlock? source with
    | none => .error .malformedInput
    | some [] => .error (.noInstructions c.input)
    | some program => .ok program

/-- Makes the directory for drawings, if there is to be one, and tells whether all is in place. -/
def prepare {m : Type → Type} [Monad m] (c : Command) (host : Host m) : m Bool :=
  match c.options.dumpDir with
  | none => return true
  | some dir => host.makeDirs (.ofText dir.path)

def writeDrawings {m : Type → Type} [Monad m] (c : Command) (host : Host m)
    (files : List (String × String)) : m Unit :=
  match c.options.dumpDir with
  | none => return ()
  | some dir => files.forM fun (name, drawing) => host.writeText (.ofText (dir.file name)) drawing

end Command

/-- Carries out a command line. The drawings of blocks that were scheduled before a failure are
written too. -/
def run {m : Type → Type} [Monad m] (host : Host m) (args : List String) : m Outcome :=
  match Command.parse? args with
  | none => return { result := .error .usage }
  | some command => do
    match command.program (← host.readText (.ofText command.input)) with
    | .error failure => return { result := .error failure }
    | .ok program =>
      if ← command.prepare host then
        let outcome := command.schedule program
        command.writeDrawings host outcome.files
        return outcome
      else return { result := .error .noDirectory }

end DualIssue.CommandLine
