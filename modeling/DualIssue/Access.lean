import DualIssue.Instruction.Basic
import DualIssue.Latency
import DualIssue.Resource

/-!
# Resource accesses

What an instruction reads and writes, named operands and implicit state alike. Accesses are listed in
the order in which dependence tracking sees them: flags, then what is read, then what is written. So a
read of a resource mostly stands before a write of it by the same instruction, but not always. An
exchange with memory lists the register that it updates before the address that may be computed from
it, and a compare-exchange does so with `eax`. A load onto the x87 stack lists the write of the top
before the access to the stack as a whole.
-/

namespace DualIssue

/-- One access to a resource. `reason` is what a dependence on it costs extra. -/
structure Access where
  resource : Resource
  role : Role
  reason : LatencyReason := .plain
  deriving DecidableEq, Repr

namespace Access

def text (access : Access) : String :=
  let head := access.role.text ++ " " ++ access.resource.text
  if access.reason = .plain then head else head ++ " (" ++ access.reason.text ++ ")"

/-- An access that costs nothing extra. -/
def plain (resource : Resource) (role : Role) : Access := { resource, role }

def reg (r : Register) (role : Role) : Access := plain (.ofReg r) role

def flags (role : Role) : Access := plain .flags role

/-- A register that an address is computed from. -/
def address (r : Register) : Access :=
  { resource := .ofReg r, role := .use, reason := .agenStall }

end Access

namespace MemOperand

/-- The registers that the operand's address is computed from. -/
def addressAccesses (mem : MemOperand) : List Access :=
  (mem.base.toList ++ mem.index.toList).map .address

/-- The memory that the operand covers. Wide data in the frame covers the next slot too: the next
virtual register, or four bytes further in the spill area. The constant pool is not tracked. -/
def coveredResources (mem : MemOperand) (wide : Bool) : List Resource :=
  match mem.memClass with
  | .constants => []
  | .virtualReg index =>
    .virtualReg index :: if wide then [.virtualReg (index + 1)] else []
  | .spill slot => .spill slot :: if wide then [.spill (slot + 4)] else []
  | .unknown => [.memory]

/-- The address is read, then the memory is accessed. -/
def accesses (mem : MemOperand) (wide : Bool) (role : Role) : List Access :=
  mem.addressAccesses ++ (mem.coveredResources wide).map (.plain · role)

end MemOperand

namespace Mnemonic

/-- Does an instruction with one operand only read it? -/
def readsOnlyOperand (m : Mnemonic) : Bool :=
  m = .call || m = .jmp || m = .push || m.usesAccumulatorPair

/-- What becomes of the destination of a two-operand form: moves write it, comparisons read it,
arithmetic does both. -/
def destinationRole (m : Mnemonic) : Role :=
  if m.isMove then .define else if m.isCompare then .use else .useDefine

/-- Between registers some more mnemonics write their destination without reading it. -/
def registerDestinationRole (m : Mnemonic) : Role :=
  match m with
  | .cmov _ | .pextrw | .pextrd => .define
  | m => if m.isMove || m.isConvert || m.isShuffle then .define else m.destinationRole

/-- Conditional jumps read the flags; other control transfers claim them. -/
def controlAccesses (m : Mnemonic) : List Access :=
  match m with
  | .jcc _ => [.flags .use]
  | _ => [.flags .define]

/-- Carry consumers read the flags, and all but moves write them. -/
def arithmeticFlags (m : Mnemonic) : List Access :=
  (if m.readsCarry then [.flags .use] else []) ++ (if m.isMove then [] else [.flags .define])

/-- The multiply and divide family updates `eax` and writes `edx`, which only division reads. -/
def accumulatorAccesses (m : Mnemonic) : List Access :=
  if m.usesAccumulatorPair then
    [.reg .eax .useDefine, .reg .edx (if m = .div || m = .idiv then .useDefine else .define)]
  else []

/-- A push moves the stack pointer and writes to the stack. -/
def pushAccesses (m : Mnemonic) : List Access :=
  if m = .push then
    [{ resource := .reg .esp, role := .useDefine, reason := .agenStall }, .plain .memory .define]
  else []

/-- What a form with at most one operand touches besides it. `keepsFlags` tells whether the mnemonic
leaves the flags alone in this form. -/
def implicitAccesses (m : Mnemonic) (keepsFlags : Bool) : List Access :=
  (if m.isDelimiter then m.controlAccesses else if keepsFlags then [] else [.flags .define])
    ++ m.accumulatorAccesses ++ m.pushAccesses

def loneMemoryRole (m : Mnemonic) : Role :=
  match m with
  | .fldcw => .use
  | .fnstcw => .define
  | m => if m.readsOnlyOperand then .use else .useDefine

def registerFormFlags (m : Mnemonic) : List Access :=
  match m with
  | .cmov _ => [.flags .use]
  | m => if m.isMove || m.isConvert then [] else m.arithmeticFlags

def loadFormFlags (m : Mnemonic) : List Access :=
  (if m.readsCarry then [.flags .use] else [])
    ++ (if m.isMove || m.isConvert || m = .lea then [] else [.flags .define])

end Mnemonic

namespace Instruction

/-- A register-to-register form, with or without an immediate. Sign extension of the accumulator
names its registers implicitly. -/
def registerFormAccesses (m : Mnemonic) (src dst : Register) : List Access :=
  if m = .cdq then m.accumulatorAccesses
  else m.registerFormFlags ++ [.reg src .use, .reg dst m.registerDestinationRole]

/-- A form that reads memory into a register. An address computation reads no memory. -/
def loadFormAccesses (m : Mnemonic) (wide : Bool) (src : MemOperand) (dst : Register) :
    List Access :=
  if m.isX87 then
    src.accesses wide .use
      ++ [.reg dst (if m = .fld || m = .fild then .define else .useDefine)]
  else
    m.loadFormFlags
      ++ (if m = .lea then src.addressAccesses else src.accesses wide .use)
      ++ [.reg dst (if m.isConvert || m = .lea then .define else m.destinationRole)]

/-- A form that writes a register to memory. Exchanges read and write both of their operands. -/
def storeFormAccesses (m : Mnemonic) (wide : Bool) (src : Register) (dst : MemOperand) :
    List Access :=
  if m.isX87 then .reg src .use :: dst.accesses wide .define
  else
    m.arithmeticFlags
      ++ (if m = .cmpxchg then [.reg .eax .useDefine] else [])
      ++ (if m = .xchg then .reg src .useDefine :: dst.accesses wide .useDefine
          else .reg src .use :: dst.accesses wide m.destinationRole)

/-- The accesses of the operands and of the state that goes with their form. -/
def formAccesses (m : Mnemonic) (wide : Bool) : Operands → List Access
  | .none | .imm _ => m.implicitAccesses (m = .push || m = .cdq || m.isX87)
  | .reg r =>
    .reg r (if m.readsOnlyOperand then .use else .useDefine) :: m.implicitAccesses (m = .push)
  | .mem mem =>
    mem.accesses wide m.loneMemoryRole
      ++ m.implicitAccesses (m = .push || m = .fldcw || m = .fnstcw)
  | .immToReg _ dst => m.arithmeticFlags ++ [.reg dst m.destinationRole]
  | .immToMem _ dst => m.arithmeticFlags ++ dst.accesses wide m.destinationRole
  | .regToReg src dst | .immRegReg _ src dst => registerFormAccesses m src dst
  | .memToReg src dst => loadFormAccesses m wide src dst
  | .regToMem src dst => storeFormAccesses m wide src dst

/-- All accesses of an instruction, in recording order. Every x87 instruction ends by reading and
writing the register stack, which keeps them in order among themselves. -/
def accesses (inst : Instruction) : List Access :=
  formAccesses inst.mnemonic inst.size.isWide inst.operands
    ++ if inst.mnemonic.isX87 then [.plain .fpStack .useDefine] else []

end Instruction

end DualIssue
