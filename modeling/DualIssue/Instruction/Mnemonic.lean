/-!
# Mnemonics

The native mnemonics that instruction selection produces, their spelling, and the classes that the
dependence rules ask about.
-/

namespace DualIssue

/-! ### Conditions -/

/-- A condition on the flags. -/
inductive Cond where
  | o | no | b | ae | e | ne | be | a | s | ns | p | np | l | ge | le | g
  deriving DecidableEq, Repr

namespace Cond

def all : List Cond :=
  [.o, .no, .b, .ae, .e, .ne, .be, .a, .s, .ns, .p, .np, .l, .ge, .le, .g]

def name : Cond → String
  | .o => "o"
  | .no => "no"
  | .b => "b"
  | .ae => "ae"
  | .e => "e"
  | .ne => "ne"
  | .be => "be"
  | .a => "a"
  | .s => "s"
  | .ns => "ns"
  | .p => "p"
  | .np => "np"
  | .l => "l"
  | .ge => "ge"
  | .le => "le"
  | .g => "g"

def ofName? (s : String) : Option Cond :=
  all.find? fun c => c.name = s

end Cond

/-! ### Mnemonics -/

/-- A native mnemonic. Conditional jumps and moves carry their condition. -/
inductive Mnemonic where
  | jmp | call | ret | mov | adc | add | and | or | sbb | sub | xor | cmp | test | dec
  | neg | not | lea | push | sal | sar | shr | shld | shrd | xchg | cmpxchg | cdq | mul
  | imul | div | idiv | movd | movq | movsx | movzx | movsd | movss | movapd | movdqa
  | addsd | addss | subsd | subss | mulsd | mulss | divsd | divss | comisd | comiss
  | ucomisd | ucomiss | cvtsd2ss | cvtsd2si | cvttsd2si | cvtss2sd | cvtss2si | cvttss2si
  | cvtsi2sd | cvtsi2ss | xorpd | pand | pandn | por | pxor | paddb | paddw | paddd
  | paddq | psubb | psubw | psubd | psubq | pmullw | pmulld | psllw | pslld | psllq
  | psraw | psrad | psrlw | psrld | psrlq | pmovsxbw | pshufb | pshufd | pshuflw | pshufhw
  | phaddw | phaddsw | phaddd | phsubw | phsubsw | phsubd | pextrb | pextrw | pextrd | fld
  | fild | fst | fstp | fist | fistp | fadd | faddp | fsub | fsubp | fmul | fmulp | fdiv
  | fdivp | fsqrt | fabs | fucom | fucomp | fucomi | fucomip | fldcw | fnstcw
  | jcc (cond : Cond)
  | cmov (cond : Cond)
  deriving DecidableEq, Repr

namespace Mnemonic

/-- Every mnemonic that carries no condition. -/
def plain : List Mnemonic :=
  [.jmp, .call, .ret, .mov, .adc, .add, .and, .or, .sbb, .sub, .xor, .cmp, .test, .dec, .neg,
   .not, .lea, .push, .sal, .sar, .shr, .shld, .shrd, .xchg, .cmpxchg, .cdq, .mul, .imul, .div,
   .idiv, .movd, .movq, .movsx, .movzx, .movsd, .movss, .movapd, .movdqa, .addsd, .addss,
   .subsd, .subss, .mulsd, .mulss, .divsd, .divss, .comisd, .comiss, .ucomisd, .ucomiss,
   .cvtsd2ss, .cvtsd2si, .cvttsd2si, .cvtss2sd, .cvtss2si, .cvttss2si, .cvtsi2sd, .cvtsi2ss,
   .xorpd, .pand, .pandn, .por, .pxor, .paddb, .paddw, .paddd, .paddq, .psubb, .psubw, .psubd,
   .psubq, .pmullw, .pmulld, .psllw, .pslld, .psllq, .psraw, .psrad, .psrlw, .psrld, .psrlq,
   .pmovsxbw, .pshufb, .pshufd, .pshuflw, .pshufhw, .phaddw, .phaddsw, .phaddd, .phsubw,
   .phsubsw, .phsubd, .pextrb, .pextrw, .pextrd, .fld, .fild, .fst, .fstp, .fist, .fistp, .fadd,
   .faddp, .fsub, .fsubp, .fmul, .fmulp, .fdiv, .fdivp, .fsqrt, .fabs, .fucom, .fucomp, .fucomi,
   .fucomip, .fldcw, .fnstcw]

/-- The lower-case spelling; a conditional mnemonic is spelled by its family. -/
def name : Mnemonic → String
  | .jmp => "jmp"
  | .call => "call"
  | .ret => "ret"
  | .mov => "mov"
  | .adc => "adc"
  | .add => "add"
  | .and => "and"
  | .or => "or"
  | .sbb => "sbb"
  | .sub => "sub"
  | .xor => "xor"
  | .cmp => "cmp"
  | .test => "test"
  | .dec => "dec"
  | .neg => "neg"
  | .not => "not"
  | .lea => "lea"
  | .push => "push"
  | .sal => "sal"
  | .sar => "sar"
  | .shr => "shr"
  | .shld => "shld"
  | .shrd => "shrd"
  | .xchg => "xchg"
  | .cmpxchg => "cmpxchg"
  | .cdq => "cdq"
  | .mul => "mul"
  | .imul => "imul"
  | .div => "div"
  | .idiv => "idiv"
  | .movd => "movd"
  | .movq => "movq"
  | .movsx => "movsx"
  | .movzx => "movzx"
  | .movsd => "movsd"
  | .movss => "movss"
  | .movapd => "movapd"
  | .movdqa => "movdqa"
  | .addsd => "addsd"
  | .addss => "addss"
  | .subsd => "subsd"
  | .subss => "subss"
  | .mulsd => "mulsd"
  | .mulss => "mulss"
  | .divsd => "divsd"
  | .divss => "divss"
  | .comisd => "comisd"
  | .comiss => "comiss"
  | .ucomisd => "ucomisd"
  | .ucomiss => "ucomiss"
  | .cvtsd2ss => "cvtsd2ss"
  | .cvtsd2si => "cvtsd2si"
  | .cvttsd2si => "cvttsd2si"
  | .cvtss2sd => "cvtss2sd"
  | .cvtss2si => "cvtss2si"
  | .cvttss2si => "cvttss2si"
  | .cvtsi2sd => "cvtsi2sd"
  | .cvtsi2ss => "cvtsi2ss"
  | .xorpd => "xorpd"
  | .pand => "pand"
  | .pandn => "pandn"
  | .por => "por"
  | .pxor => "pxor"
  | .paddb => "paddb"
  | .paddw => "paddw"
  | .paddd => "paddd"
  | .paddq => "paddq"
  | .psubb => "psubb"
  | .psubw => "psubw"
  | .psubd => "psubd"
  | .psubq => "psubq"
  | .pmullw => "pmullw"
  | .pmulld => "pmulld"
  | .psllw => "psllw"
  | .pslld => "pslld"
  | .psllq => "psllq"
  | .psraw => "psraw"
  | .psrad => "psrad"
  | .psrlw => "psrlw"
  | .psrld => "psrld"
  | .psrlq => "psrlq"
  | .pmovsxbw => "pmovsxbw"
  | .pshufb => "pshufb"
  | .pshufd => "pshufd"
  | .pshuflw => "pshuflw"
  | .pshufhw => "pshufhw"
  | .phaddw => "phaddw"
  | .phaddsw => "phaddsw"
  | .phaddd => "phaddd"
  | .phsubw => "phsubw"
  | .phsubsw => "phsubsw"
  | .phsubd => "phsubd"
  | .pextrb => "pextrb"
  | .pextrw => "pextrw"
  | .pextrd => "pextrd"
  | .fld => "fld"
  | .fild => "fild"
  | .fst => "fst"
  | .fstp => "fstp"
  | .fist => "fist"
  | .fistp => "fistp"
  | .fadd => "fadd"
  | .faddp => "faddp"
  | .fsub => "fsub"
  | .fsubp => "fsubp"
  | .fmul => "fmul"
  | .fmulp => "fmulp"
  | .fdiv => "fdiv"
  | .fdivp => "fdivp"
  | .fsqrt => "fsqrt"
  | .fabs => "fabs"
  | .fucom => "fucom"
  | .fucomp => "fucomp"
  | .fucomi => "fucomi"
  | .fucomip => "fucomip"
  | .fldcw => "fldcw"
  | .fnstcw => "fnstcw"
  | .jcc _ => "jcc"
  | .cmov _ => "cmov"

def ofName? (s : String) : Option Mnemonic :=
  plain.find? fun m => m.name = s

def upper (s : String) : String :=
  String.ofList (s.toList.map Char.toUpper)

/-- How a listing shows the mnemonic: upper case, the condition appended to its family. -/
def text : Mnemonic → String
  | .jcc cond => "J" ++ upper cond.name
  | .cmov cond => "CMOV" ++ upper cond.name
  | m => upper m.name

/-! ### Classes -/

/-- Control transfers end a basic block. -/
def isDelimiter : Mnemonic → Bool
  | .jmp | .call | .ret | .jcc _ => true
  | _ => false

/-- Moves write their destination without reading it, and leave the flags alone. -/
def isMove : Mnemonic → Bool
  | .mov | .movq | .movsd | .movss | .movzx | .movsx | .movapd | .movdqa | .movd | .xchg => true
  | _ => false

/-- Comparisons only read their operands. -/
def isCompare : Mnemonic → Bool
  | .cmp | .test | .comisd | .comiss | .ucomisd | .ucomiss => true
  | _ => false

/-- Conversions between integers and the two scalar float formats. -/
def isConvert : Mnemonic → Bool
  | .cvtsd2ss | .cvtsd2si | .cvttsd2si | .cvtss2sd | .cvtss2si | .cvttss2si | .cvtsi2sd
  | .cvtsi2ss => true
  | _ => false

/-- Shuffles write their whole destination. -/
def isShuffle : Mnemonic → Bool
  | .pshufb | .pshufd | .pshuflw | .pshufhw => true
  | _ => false

/-- Arithmetic that consumes the carry flag. -/
def readsCarry : Mnemonic → Bool
  | .adc | .sbb => true
  | _ => false

/-- Instructions of the x87 stack unit. -/
def isX87 : Mnemonic → Bool
  | .fld | .fild | .fst | .fstp | .fist | .fistp | .fadd | .faddp | .fsub | .fsubp | .fmul | .fmulp
  | .fdiv | .fdivp | .fsqrt | .fabs | .fucom | .fucomp | .fucomi | .fucomip | .fldcw
  | .fnstcw => true
  | _ => false

/-- The multiply and divide family, which works on the pair `edx:eax`. -/
def usesAccumulatorPair : Mnemonic → Bool
  | .mul | .imul | .div | .idiv | .cdq => true
  | _ => false

end Mnemonic

end DualIssue
