import DualIssue.Register

/-!
# Resources

What dependence tracking is keyed on. Two instructions that touch one resource may have to keep their
order; instructions that share none are free to move.
-/

namespace DualIssue

/-- A piece of machine state, as fine as dependences are told apart. -/
inductive Resource where
  | reg (reg : Register)
  /-- The condition flags, which also stand in for the control state of branches. -/
  | flags
  /-- The home slot of a virtual register in the frame. -/
  | virtualReg (index : UInt32)
  /-- A spill slot on the native stack. -/
  | spill (slot : UInt32)
  /-- Any memory that cannot be told apart. -/
  | memory
  /-- The whole x87 register stack. -/
  | fpStack
  /-- Read-only constants, which no instruction writes. -/
  | constants
  deriving DecidableEq, Repr

namespace Resource

/-- The resource of a register operand: the x87 stack is one resource. -/
def ofReg : Register → Resource
  | .st0 => .fpStack
  | r => .reg r

/-- Constants need no tracking. -/
def isTracked : Resource → Bool
  | .constants => false
  | _ => true

def text : Resource → String
  | .reg r => r.name
  | .flags => "flags"
  | .virtualReg index => "vr" ++ toString index.toNat
  | .spill slot => "spill" ++ toString slot.toNat
  | .memory => "mem"
  | .fpStack => "fpstack"
  | .constants => "const"

end Resource

/-- How an instruction touches a resource. -/
inductive Role where
  | use
  | define
  | useDefine
  deriving DecidableEq, Repr

namespace Role

/-- The old value matters. -/
def reads : Role → Bool
  | .use | .useDefine => true
  | .define => false

/-- A new value is left behind. -/
def writes : Role → Bool
  | .define | .useDefine => true
  | .use => false

def text : Role → String
  | .use => "use"
  | .define => "def"
  | .useDefine => "usedef"

end Role

end DualIssue
