import DualIssue.Instruction.Basic
import DualIssue.Json.Decode
import DualIssue.Json.Parser

/-!
# Instructions in JSON

Each type has a reader `ofJson?`, which accepts every form that `Json.Decode` describes, and a writer
`toJson`, which writes variants without data as strings and every field of a record. A block is an
array of instructions in program order.
-/

namespace DualIssue

namespace Register

def ofJson? (j : Json) : Option Register := j.name?.bind ofName?

def toJson (r : Register) : Json := .text r.name

end Register

namespace Cond

def ofJson? (j : Json) : Option Cond := j.name?.bind ofName?

def toJson (c : Cond) : Json := .text c.name

end Cond

namespace Mnemonic

/-- Conditional mnemonics carry their condition as data; all others are bare names. -/
def ofJson? (j : Json) : Option Mnemonic :=
  match j.variant? with
  | some ("jcc", some cond) => (Cond.ofJson? cond).map .jcc
  | some ("cmov", some cond) => (Cond.ofJson? cond).map .cmov
  | _ => j.name?.bind ofName?

/-- Writes a mnemonic as its name, or its family with the condition. -/
def toJson : Mnemonic → Json
  | .jcc cond => .object [("jcc", cond.toJson)]
  | .cmov cond => .object [("cmov", cond.toJson)]
  | m => .text m.name

end Mnemonic

namespace OperandSize

def ofJson? (j : Json) : Option OperandSize := j.name?.bind ofName?

def toJson (s : OperandSize) : Json := .text s.name

end OperandSize

namespace MemoryClass

/-- Reads a memory class; the frame classes carry their index. -/
def ofJson? (j : Json) : Option MemoryClass :=
  match j.variant? with
  | some ("virtual_reg", some index) => index.uint32?.map .virtualReg
  | some ("spill", some slot) => slot.uint32?.map .spill
  | _ =>
    match j.name? with
    | some "unknown" => some .unknown
    | some "constants" => some .constants
    | _ => none

def toJson : MemoryClass → Json
  | .virtualReg index => .object [("virtual_reg", .nat index.toNat)]
  | .spill slot => .object [("spill", .nat slot.toNat)]
  | .unknown => .text "unknown"
  | .constants => .text "constants"

end MemoryClass

namespace MemOperand

/-- Every field has a default: no base, no index, displacement zero, unknown class. -/
def ofJson? (j : Json) : Option MemOperand :=
  match j.record? ["base", "index", "disp", "class"] with
  | some [base, index, disp, memClass] => do
    let base ← Json.optional none (Json.nullable Register.ofJson?) base
    let index ← Json.optional none (Json.nullable Register.ofJson?) index
    let disp ← Json.optional 0 Json.int32? disp
    let memClass ← Json.optional .unknown MemoryClass.ofJson? memClass
    return { base, index, disp, memClass }
  | _ => none

def toJson (mem : MemOperand) : Json :=
  .object
    [("base", .ofOption Register.toJson mem.base),
     ("index", .ofOption Register.toJson mem.index),
     ("disp", .int mem.disp.toInt),
     ("class", mem.memClass.toJson)]

end MemOperand

namespace Operands

/-- Reads the two fields of a form with two operands. -/
def pair? {α β : Type} (first second : String) (readFirst : Json → Option α)
    (readSecond : Json → Option β) (j : Json) : Option (α × β) :=
  match j.record? [first, second] with
  | some [a, b] => do
    let a ← Json.required readFirst a
    let b ← Json.required readSecond b
    return (a, b)
  | _ => .none

/-- Reads the three fields of the form with an immediate and two registers. -/
def immRegReg? (j : Json) : Option Operands :=
  match j.record? ["imm", "src", "dst"] with
  | some [value, src, dst] => do
    let value ← Json.required Json.int64? value
    let src ← Json.required Register.ofJson? src
    let dst ← Json.required Register.ofJson? dst
    return .immRegReg value src dst
  | _ => .none

/-- Every form but the empty one carries data. -/
def ofJson? (j : Json) : Option Operands :=
  match j.variant? with
  | some ("imm", some data) => data.int64?.map .imm
  | some ("reg", some data) => (Register.ofJson? data).map .reg
  | some ("mem", some data) => (MemOperand.ofJson? data).map .mem
  | some ("imm_to_reg", some data) =>
    (pair? "imm" "dst" Json.int64? Register.ofJson? data).map fun (value, dst) =>
      .immToReg value dst
  | some ("imm_to_mem", some data) =>
    (pair? "imm" "dst" Json.int64? MemOperand.ofJson? data).map fun (value, dst) =>
      .immToMem value dst
  | some ("reg_to_reg", some data) =>
    (pair? "src" "dst" Register.ofJson? Register.ofJson? data).map fun (src, dst) =>
      .regToReg src dst
  | some ("mem_to_reg", some data) =>
    (pair? "src" "dst" MemOperand.ofJson? Register.ofJson? data).map fun (src, dst) =>
      .memToReg src dst
  | some ("reg_to_mem", some data) =>
    (pair? "src" "dst" Register.ofJson? MemOperand.ofJson? data).map fun (src, dst) =>
      .regToMem src dst
  | some ("imm_reg_reg", some data) => immRegReg? data
  | _ => if j.name? = some "none" then some .none else .none

def immJson (value : Int64) : Json := .int value.toInt

def dataJson : Operands → Json
  | .none => .null
  | .imm value => immJson value
  | .reg r => r.toJson
  | .mem m => m.toJson
  | .immToReg value dst => .object [("imm", immJson value), ("dst", dst.toJson)]
  | .immToMem value dst => .object [("imm", immJson value), ("dst", dst.toJson)]
  | .regToReg src dst => .object [("src", src.toJson), ("dst", dst.toJson)]
  | .memToReg src dst => .object [("src", src.toJson), ("dst", dst.toJson)]
  | .regToMem src dst => .object [("src", src.toJson), ("dst", dst.toJson)]
  | .immRegReg value src dst =>
    .object [("imm", immJson value), ("src", src.toJson), ("dst", dst.toJson)]

/-- Writes the empty form as its name, every other form with its data. -/
def toJson (operands : Operands) : Json :=
  match operands with
  | .none => .text "none"
  | operands => .object [(operands.shape.name, operands.dataJson)]

end Operands

namespace Instruction

/-- Only the mnemonic is required. -/
def ofJson? (j : Json) : Option Instruction :=
  match j.record? ["mnemonic", "operands", "size", "volatile"] with
  | some [mnemonic, operands, size, isVolatile] => do
    let mnemonic ← Json.required Mnemonic.ofJson? mnemonic
    let operands ← Json.optional .none Operands.ofJson? operands
    let size ← Json.optional .s32 OperandSize.ofJson? size
    let isVolatile ← Json.optional false Json.bool? isVolatile
    return { mnemonic, operands, size, isVolatile }
  | _ => none

def toJson (inst : Instruction) : Json :=
  .object
    [("mnemonic", inst.mnemonic.toJson),
     ("operands", inst.operands.toJson),
     ("size", inst.size.toJson),
     ("volatile", .bool inst.isVolatile)]

/-- The instructions of a block written as a JSON array. -/
def loadBlock? (source : String) : Option (List Instruction) :=
  (Json.parse? source).bind (Json.list? ofJson?)

end Instruction

end DualIssue
