import DualIssue.Fault
import DualIssue.Instruction.Basic

/-!
# Errors

Why a block could not be scheduled or emitted, and the text that reports it.
-/

namespace DualIssue

/-- Why an encoder refuses an instruction. -/
inductive EmitError where
  /-- The code cache holds this many instructions and no more. -/
  | codeCacheFull (emitted : Nat)
  | encoding (reason : String)
  deriving DecidableEq, Repr

def EmitError.message : EmitError → String
  | .codeCacheFull emitted =>
    "code cache is full after " ++ toString emitted ++ " instructions"
  | .encoding reason => "encoding failed: " ++ reason

/-- Why a block could not be scheduled. -/
inductive ScheduleError where
  | dependencyCycle (slot : Slot)
  | sizeMismatch (expected actual : Nat)
  | delimiterNotLast (slot : Slot)
  | noReadyInstruction (time : Nat)
  | unmodeled (mnemonic : Mnemonic) (shape : Shape)
  | emission (error : EmitError)
  | fault (fault : Fault)
  deriving DecidableEq, Repr

def ScheduleError.message : ScheduleError → String
  | .dependencyCycle slot => "Dependency cycle through slot " ++ toString slot
  | .sizeMismatch expected actual =>
    "Scheduled block has " ++ toString actual ++ " instructions, expected " ++ toString expected
  | .delimiterNotLast slot =>
    "Block delimiter at slot " ++ toString slot ++ " is not scheduled last"
  | .noReadyInstruction time => "No instruction can issue at cycle " ++ toString time
  | .unmodeled mnemonic shape =>
    "Machine model has no entry for " ++ mnemonic.text ++ " with " ++ shape.name ++ " operands"
  | .emission error => "Emission error: " ++ error.message
  | .fault .overflow => "overflow"
  | .fault .missingSlot => "index"

/-- A fault ends scheduling. -/
def liftFault {α : Type} : Except Fault α → Except ScheduleError α
  | .ok a => .ok a
  | .error f => .error (.fault f)

end DualIssue
