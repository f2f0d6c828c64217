import DualIssue.Instruction.Mnemonic
import DualIssue.Instruction.Operand

/-!
# Instructions

A fully resolved native instruction, as instruction selection hands it over.
-/

namespace DualIssue

structure Instruction where
  mnemonic : Mnemonic
  operands : Operands := .none
  size : OperandSize := .s32
  /-- A volatile access orders every later access to memory that cannot be told apart. -/
  isVolatile : Bool := false
  deriving DecidableEq, Repr

namespace Instruction

def shape (inst : Instruction) : Shape := inst.operands.shape

/-- Does the instruction end its basic block? -/
def isDelimiter (inst : Instruction) : Bool := inst.mnemonic.isDelimiter

/-- A move whose source is memory. Consumers of its result pay the load latency. -/
def isMemoryLoad (inst : Instruction) : Bool :=
  inst.mnemonic.isMove && inst.shape = .memToReg

def text (inst : Instruction) : String := inst.mnemonic.text ++ inst.operands.text

end Instruction

end DualIssue
