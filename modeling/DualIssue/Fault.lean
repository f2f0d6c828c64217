/-!
# Slots, cycle counts and faults

Slots number the instructions of a block in program order. Cycle counts have 32 bits: a sum that does
not fit is a fault, never a wrapped number. The other fault is to name a slot that does not exist.
-/

namespace DualIssue

/-- The position of an instruction in its block. -/
abbrev Slot := Nat

/-- Input that leaves the range in which scheduling is defined. -/
inductive Fault where
  /-- A cycle count exceeds 32 bits. -/
  | overflow
  /-- A slot has no node or no record. -/
  | missingSlot
  deriving DecidableEq, Repr

def maxCycle : Nat := 4294967295

/-- A cycle count that fits. -/
def checkCycle (n : Nat) : Except Fault Nat :=
  if n ≤ maxCycle then .ok n else .error .overflow

/-- The maximum of a list of cycle counts, zero for none. -/
def latest (cycles : List Nat) : Nat := cycles.foldl max 0

end DualIssue
