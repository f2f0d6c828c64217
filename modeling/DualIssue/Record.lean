import DualIssue.Fault
import DualIssue.Machine.Model

/-!
# Records

An instruction together with what the machine model says of it and what scheduling finds out.
-/

namespace DualIssue

/-- The scheduling state of one instruction. -/
structure Record where
  slot : Slot
  inst : Instruction
  port : IssuePort
  latency : Nat
  /-- The first cycle in which all of its inputs are there. -/
  readyTime : Nat := 0
  /-- The cycle in which it issues. -/
  issueTime : Option Nat := none
  /-- Cycles from its issue to the end of the longest chain that starts with it. -/
  longestPath : Option Nat := none
  deriving DecidableEq, Repr

namespace Record

/-- A record before scheduling. -/
def ofEntry (slot : Slot) (inst : Instruction) (entry : MachineEntry) : Record :=
  { slot, inst, port := entry.port, latency := entry.latency }

/-- The weight by which instructions compete; one without a known path counts as zero. -/
def priority (record : Record) : Nat := record.longestPath.getD 0

end Record

end DualIssue
