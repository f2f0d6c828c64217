import DualIssue.Machine.Model

/-!
# The Atom pipeline

Ports and latencies of the two-port in-order Atom core. Each mnemonic has a row of six columns, and the
ten operand shapes fold onto them.
-/

namespace DualIssue.Atom

/-- The entries of one mnemonic: without register or memory operand, on a register, on memory, from
register to register, from memory to register, from register to memory. -/
abbrev Row := Vector (Option MachineEntry) 6

def port0 (latency : Nat) : Option MachineEntry := some ⟨.port0, latency⟩

def port1 (latency : Nat) : Option MachineEntry := some ⟨.port1, latency⟩

def either (latency : Nat) : Option MachineEntry := some ⟨.either, latency⟩

def both (latency : Nat) : Option MachineEntry := some ⟨.both, latency⟩

/-! ### Rows that several mnemonics share -/

/-- Integer arithmetic, logic and moves. -/
def alu : Row :=
  #v[none, either 1, port0 1, either 1, port0 1, port0 1]

/-- Packed logic and narrow packed addition. -/
def sseLogic : Row :=
  #v[none, none, none, either 1, port0 1, none]

def sseAdd : Row :=
  #v[none, none, none, port1 5, both 5, none]

def sseQword : Row :=
  #v[none, none, none, either 2, either 3, none]

def sseShiftQword : Row :=
  #v[none, either 1, none, either 2, either 3, none]

def sseShift : Row :=
  #v[none, port0 1, none, both 2, both 3, none]

def shift : Row :=
  #v[none, port0 1, port0 1, port0 1, none, none]

def doubleShift : Row :=
  #v[none, none, none, both 4, both 4, both 2]

/-- Scalar float comparison. -/
def comis : Row :=
  #v[none, both 9, none, both 9, both 10, none]

/-- Negation and complement. -/
def unary : Row :=
  #v[none, either 1, port0 10, none, none, none]

def cmov : Row :=
  #v[none, none, none, either 1, port0 1, none]

def shuffle : Row :=
  #v[none, none, none, port0 1, none, none]

/-- Extraction of one packed element. -/
def extract : Row :=
  #v[none, none, none, both 4, none, none]

def haddWord : Row :=
  #v[none, none, none, both 7, both 8, none]

def haddDword : Row :=
  #v[none, none, none, both 3, both 4, none]

def fpAdd : Row :=
  #v[none, none, none, none, port1 5, none]

def fpMul : Row :=
  #v[none, none, none, none, port0 5, none]

/-- Division and square root on the x87 stack. -/
def fpDiv : Row :=
  #v[none, none, none, none, port0 65, none]

def fpCompare : Row :=
  #v[none, none, none, port1 1, none, none]

def fpStore : Row :=
  #v[none, none, none, none, none, either 1]

def fpStoreInt : Row :=
  #v[none, none, none, none, none, either 6]

/-- Exchanges, which lock the bus. -/
def locked : Row :=
  #v[none, none, none, none, port0 5, port0 5]

def divide : Row :=
  #v[none, both 57, both 57, none, none, none]

def jcc : Row :=
  #v[port1 1, none, none, none, none, none]

/-! ### The table -/

def row : Mnemonic → Row
  | .jmp => #v[port1 1, port1 1, both 2, none, none, none]
  | .jcc _ => jcc
  | .call => #v[both 1, both 1, either 2, none, none, none]
  | .ret => #v[both 1, none, none, none, none, none]
  | .mov | .adc | .add | .and | .or | .sbb | .sub | .xor | .cmp => alu
  | .test => #v[none, either 1, port0 1, either 1, none, port0 1]
  | .dec => #v[none, either 1, port0 1, none, none, none]
  | .neg | .not => unary
  | .lea => #v[none, none, none, none, port1 1, none]
  | .push => #v[none, both 1, both 2, none, none, none]
  | .sal | .sar | .shr => shift
  | .shld | .shrd => doubleShift
  | .xchg | .cmpxchg => locked
  | .cdq => #v[none, none, none, port0 1, none, none]
  | .mul => #v[none, both 6, both 7, none, none, none]
  | .imul => #v[none, port0 5, port0 5, port0 5, port0 5, none]
  | .div | .idiv => divide
  | .cmov _ => cmov
  | .movd => #v[none, none, none, port0 1, port0 1, port0 1]
  | .movq => #v[none, port0 1, port0 1, port0 1, port0 1, port0 1]
  | .movsx | .movzx => #v[none, none, none, port0 1, port0 1, none]
  | .movsd | .movss => #v[none, port0 1, none, either 1, port0 1, port0 1]
  | .movapd => #v[none, none, none, none, port0 1, port0 1]
  | .movdqa => sseLogic
  | .addsd | .addss | .subsd | .subss => sseAdd
  | .mulsd => #v[none, none, none, port0 5, port0 5, none]
  | .mulss => #v[none, none, none, port0 4, port0 4, none]
  | .divsd => #v[none, none, none, both 62, both 62, none]
  | .divss => #v[none, none, none, both 34, both 34, none]
  | .comisd | .comiss | .ucomisd | .ucomiss => comis
  | .cvtsd2ss | .cvtss2sd | .cvtsi2sd => #v[none, none, none, both 7, both 8, none]
  | .cvtsd2si | .cvttsd2si => #v[none, none, none, both 8, both 9, none]
  | .cvtss2si | .cvttss2si => #v[none, none, none, both 9, both 10, none]
  | .cvtsi2ss => #v[none, none, none, both 6, both 7, none]
  | .xorpd | .pand | .pandn | .por | .pxor | .paddb | .paddw | .paddd | .psubb | .psubw
  | .psubd => sseLogic
  | .paddq | .psubq => sseQword
  | .pmullw | .pmulld => #v[none, none, none, port0 5, port0 4, none]
  | .psllq | .psrlq => sseShiftQword
  | .psllw | .pslld | .psraw | .psrad | .psrlw | .psrld => sseShift
  | .pmovsxbw => #v[none, none, none, port0 3, none, none]
  | .pshufb | .pshufd | .pshuflw | .pshufhw => shuffle
  | .phaddw | .phaddsw | .phsubw | .phsubsw => haddWord
  | .phaddd | .phsubd => haddDword
  | .pextrb | .pextrw | .pextrd => extract
  | .fld => #v[none, none, none, none, port0 1, none]
  | .fild => #v[none, none, none, none, both 5, none]
  | .fst | .fstp => fpStore
  | .fist | .fistp => fpStoreInt
  | .fadd | .faddp | .fsub | .fsubp => fpAdd
  | .fmul | .fmulp => fpMul
  | .fdiv | .fdivp | .fsqrt => fpDiv
  | .fabs => #v[none, none, none, none, either 1, none]
  | .fucom | .fucomp | .fucomi | .fucomip => fpCompare
  | .fldcw => #v[none, none, both 5, none, both 5, none]
  | .fnstcw => #v[none, none, both 5, none, none, both 5]

def column : Shape → Fin 6
  | .none | .imm => 0
  | .reg | .immToReg => 1
  | .mem | .immToMem => 2
  | .regToReg | .immRegReg => 3
  | .memToReg => 4
  | .regToMem => 5

def model : MachineModel := fun m s => (row m).get (column s)

end DualIssue.Atom
