/-!
# Registers

The physical registers an operand can name.
-/

namespace DualIssue

/-- A physical register. `st0` is the top of the x87 stack. -/
inductive Register where
  | eax | ecx | edx | ebx | esp | ebp | esi | edi
  | xmm0 | xmm1 | xmm2 | xmm3 | xmm4 | xmm5 | xmm6 | xmm7
  | st0
  deriving DecidableEq, Repr

namespace Register

def all : List Register :=
  [.eax, .ecx, .edx, .ebx, .esp, .ebp, .esi, .edi,
   .xmm0, .xmm1, .xmm2, .xmm3, .xmm4, .xmm5, .xmm6, .xmm7, .st0]

def name : Register → String
  | .eax => "eax"
  | .ecx => "ecx"
  | .edx => "edx"
  | .ebx => "ebx"
  | .esp => "esp"
  | .ebp => "ebp"
  | .esi => "esi"
  | .edi => "edi"
  | .xmm0 => "xmm0"
  | .xmm1 => "xmm1"
  | .xmm2 => "xmm2"
  | .xmm3 => "xmm3"
  | .xmm4 => "xmm4"
  | .xmm5 => "xmm5"
  | .xmm6 => "xmm6"
  | .xmm7 => "xmm7"
  | .st0 => "st0"

def ofName? (s : String) : Option Register :=
  all.find? fun r => r.name = s

end Register

end DualIssue
