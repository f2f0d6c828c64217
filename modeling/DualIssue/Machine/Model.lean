import DualIssue.Instruction.Basic

/-!
# Machine models

The machine issues up to two instructions per cycle, one on each of two ports. A machine model says,
for a mnemonic and an operand shape, which port the instruction needs and after how many cycles its
result can be used.
-/

namespace DualIssue

/-- Where an instruction can issue: on one given port, on either, or only on both at once. -/
inductive IssuePort where
  | port0
  | port1
  | either
  | both
  deriving DecidableEq, Repr

namespace IssuePort

/-- Two instructions that cannot issue in one cycle: one needs both ports, or both need the same. -/
def conflictsWith : IssuePort → IssuePort → Bool
  | .both, _ | _, .both => true
  | .port0, .port0 | .port1, .port1 => true
  | _, _ => false

def text : IssuePort → String
  | .port0 => "0"
  | .port1 => "1"
  | .either => "either"
  | .both => "both"

end IssuePort

structure MachineEntry where
  port : IssuePort
  latency : Nat
  deriving DecidableEq, Repr

/-- The entry of each mnemonic and operand shape; `none` where the machine is not modeled. -/
abbrev MachineModel := Mnemonic → Shape → Option MachineEntry

/-- A decision about some instructions: those with the given mnemonic and the shape of the given name,
either of which may be left open. A name that no shape has makes a rule about nothing. -/
structure ModelRule where
  mnemonic : Option Mnemonic := none
  shapeName : Option String := none
  entry : Option MachineEntry

namespace ModelRule

def appliesTo (rule : ModelRule) (m : Mnemonic) (s : Shape) : Bool :=
  rule.mnemonic.all (· = m) && rule.shapeName.all (· = s.name)

end ModelRule

namespace MachineModel

/-- The first rule that applies decides, even against an entry; the model answers for the rest. -/
def withRules (rules : List ModelRule) (model : MachineModel) : MachineModel := fun m s =>
  match rules.find? fun rule => rule.appliesTo m s with
  | some rule => rule.entry
  | none => model m s

/-- The model with an answer for whatever it does not cover. -/
def withDefault (model : MachineModel) (entry : Option MachineEntry) : MachineModel := fun m s =>
  (model m s).or entry

def empty : MachineModel := fun _ _ => none

end MachineModel

end DualIssue
