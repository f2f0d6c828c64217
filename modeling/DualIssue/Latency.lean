/-!
# Edge latencies

A dependence can cost cycles beyond the producer's own latency. The reason is named by
`LatencyReason`, the cost by a `LatencyTable`.
-/

namespace DualIssue

/-- Why a dependence carries extra latency. -/
inductive LatencyReason where
  | plain
  /-- Address generation waits on a register written just before. -/
  | agenStall
  | loadBlockedByStore
  /-- The producer is a load from memory. -/
  | memoryLoad
  deriving DecidableEq, Repr

namespace LatencyReason

def all : List LatencyReason := [.plain, .agenStall, .loadBlockedByStore, .memoryLoad]

def text : LatencyReason → String
  | .plain => "none"
  | .agenStall => "agen-stall"
  | .loadBlockedByStore => "load-blocked-by-store"
  | .memoryLoad => "memory-load"

end LatencyReason

/-- Cycles added to a dependence, by reason. -/
structure LatencyTable where
  plain : Nat := 0
  agenStall : Nat := 3
  loadBlockedByStore : Nat := 0
  memoryLoad : Nat := 0
  deriving DecidableEq, Repr

namespace LatencyTable

def get (table : LatencyTable) : LatencyReason → Nat
  | .plain => table.plain
  | .agenStall => table.agenStall
  | .loadBlockedByStore => table.loadBlockedByStore
  | .memoryLoad => table.memoryLoad

/-- The table with one reason's cost replaced. -/
def set (table : LatencyTable) (reason : LatencyReason) (cycles : Nat) : LatencyTable :=
  match reason with
  | .plain => { table with plain := cycles }
  | .agenStall => { table with agenStall := cycles }
  | .loadBlockedByStore => { table with loadBlockedByStore := cycles }
  | .memoryLoad => { table with memoryLoad := cycles }

/-- A reason costs what it was last set to, and no other reason is touched. -/
theorem get_set (table : LatencyTable) (reason other : LatencyReason) (cycles : Nat) :
    (table.set reason cycles).get other = if other = reason then cycles else table.get other := by
  cases reason <;> cases other <;> rfl

end LatencyTable

end DualIssue
