import DualIssue.Register

/-!
# Operands

Memory operands with what is known about where they point, the ten operand forms, and the shape of a
form, which is all that a machine model looks at.
-/

namespace DualIssue

/-! ### Memory operands -/

/-- Where a memory operand points, as far as it is known. -/
inductive MemoryClass where
  /-- The home slot of a virtual register. -/
  | virtualReg (index : UInt32)
  /-- A spill slot. -/
  | spill (slot : UInt32)
  | unknown
  /-- The constant pool, which is never written. -/
  | constants
  deriving DecidableEq, Repr

/-- A memory operand: base, index and displacement, and the class of memory it reaches. -/
structure MemOperand where
  base : Option Register := none
  index : Option Register := none
  disp : Int32 := 0
  memClass : MemoryClass := .unknown
  deriving DecidableEq, Repr

namespace MemOperand

/-- Memory of unknown class at a displacement from a base register. -/
def unknown (base : Register) (disp : Int32) : MemOperand :=
  { base := some base, disp }

/-- The home of a virtual register: four bytes each, upwards from the base. -/
def virtualReg (base : Register) (index : UInt32) : MemOperand :=
  { base := some base, disp := index.toInt32 * 4, memClass := .virtualReg index }

/-- A spill slot: downwards from the base, the first one word below it. -/
def spill (base : Register) (slot : UInt32) : MemOperand :=
  { base := some base, disp := -slot.toInt32 - 4, memClass := .spill slot }

/-- A place in the constant pool. -/
def constant (disp : Int32) : MemOperand :=
  { disp, memClass := .constants }

def withIndex (mem : MemOperand) (index : Register) : MemOperand :=
  { mem with index := some index }

/-- The mark in front of the brackets that tells the class. -/
def classText : MemoryClass → String
  | .virtualReg index => "vr" ++ toString index.toNat ++ ":"
  | .spill slot => "spill" ++ toString slot.toNat ++ ":"
  | .constants => "const:"
  | .unknown => ""

/-- A displacement after a register: signed decimal, nothing for zero. -/
def dispText (disp : Int32) : String :=
  if 0 < disp.toInt then "+" ++ toString disp.toInt.toNat
  else if disp.toInt < 0 then "-" ++ toString (-disp.toInt).toNat
  else ""

/-- A displacement alone: hexadecimal, a negative one as its 32-bit pattern. -/
def absoluteText (disp : Int32) : String :=
  "0x" ++ String.ofList (Nat.toDigits 16 disp.toUInt32.toNat)

/-- What stands between the brackets. -/
def addressText (mem : MemOperand) : String :=
  match mem.base, mem.index with
  | some base, some index => base.name ++ "+" ++ index.name ++ dispText mem.disp
  | some reg, none | none, some reg => reg.name ++ dispText mem.disp
  | none, none => absoluteText mem.disp

def text (mem : MemOperand) : String :=
  classText mem.memClass ++ "[" ++ mem.addressText ++ "]"

end MemOperand

/-! ### Operand forms -/

/-- The form of an operand list, without its contents. -/
inductive Shape where
  | none
  | imm
  | reg
  | mem
  | immToReg
  | immToMem
  | regToReg
  | memToReg
  | regToMem
  | immRegReg
  deriving DecidableEq, Repr

namespace Shape

def all : List Shape :=
  [.none, .imm, .reg, .mem, .immToReg, .immToMem, .regToReg, .memToReg, .regToMem, .immRegReg]

def name : Shape → String
  | .none => "none"
  | .imm => "imm"
  | .reg => "reg"
  | .mem => "mem"
  | .immToReg => "imm_to_reg"
  | .immToMem => "imm_to_mem"
  | .regToReg => "reg_to_reg"
  | .memToReg => "mem_to_reg"
  | .regToMem => "reg_to_mem"
  | .immRegReg => "imm_reg_reg"

def ofName? (s : String) : Option Shape :=
  all.find? fun shape => shape.name = s

end Shape

/-- The operands of an instruction. Forms with two operands are named from source to destination. -/
inductive Operands where
  | none
  | imm (imm : Int64)
  | reg (reg : Register)
  | mem (mem : MemOperand)
  | immToReg (imm : Int64) (dst : Register)
  | immToMem (imm : Int64) (dst : MemOperand)
  | regToReg (src dst : Register)
  | memToReg (src : MemOperand) (dst : Register)
  | regToMem (src : Register) (dst : MemOperand)
  | immRegReg (imm : Int64) (src dst : Register)
  deriving DecidableEq, Repr

namespace Operands

def shape : Operands → Shape
  | .none => .none
  | .imm _ => .imm
  | .reg _ => .reg
  | .mem _ => .mem
  | .immToReg .. => .immToReg
  | .immToMem .. => .immToMem
  | .regToReg .. => .regToReg
  | .memToReg .. => .memToReg
  | .regToMem .. => .regToMem
  | .immRegReg .. => .immRegReg

def immText (value : Int64) : String := toString value.toInt

/-- How a listing shows operands: a blank, then the destination first. -/
def text : Operands → String
  | .none => ""
  | .imm value => " " ++ immText value
  | .reg r => " " ++ r.name
  | .mem m => " " ++ m.text
  | .immToReg value dst => " " ++ dst.name ++ ", " ++ immText value
  | .immToMem value dst => " " ++ dst.text ++ ", " ++ immText value
  | .regToReg src dst => " " ++ dst.name ++ ", " ++ src.name
  | .memToReg src dst => " " ++ dst.name ++ ", " ++ src.text
  | .regToMem src dst => " " ++ dst.text ++ ", " ++ src.name
  | .immRegReg value src dst => " " ++ dst.name ++ ", " ++ src.name ++ ", " ++ immText value

end Operands

/-! ### Operand sizes -/

/-- The width of the data an instruction handles, in bits. -/
inductive OperandSize where
  | s8 | s16 | s32 | s64 | s128
  deriving DecidableEq, Repr

namespace OperandSize

def all : List OperandSize := [.s8, .s16, .s32, .s64, .s128]

def name : OperandSize → String
  | .s8 => "s8"
  | .s16 => "s16"
  | .s32 => "s32"
  | .s64 => "s64"
  | .s128 => "s128"

def ofName? (s : String) : Option OperandSize :=
  all.find? fun size => size.name = s

/-- Wide data occupies two tracked memory slots. -/
def isWide : OperandSize → Bool
  | .s64 | .s128 => true
  | .s8 | .s16 | .s32 => false

end OperandSize

end DualIssue
