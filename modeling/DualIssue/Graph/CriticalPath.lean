import DualIssue.Graph.PostOrder

/-!
# Critical paths

For each slot, the length of the longest chain of dependences that starts there, counting the latency
of every instruction and of every edge on it.
-/

namespace DualIssue

namespace Graph

/-- The longest continuation after a slot: over its outgoing edges, edge latency and path of the
target. -/
def longestTail (paths : Array Nat) (out : List Dependency) : Except Fault Nat := do
  let tails ← out.mapM fun d => checkCycle (d.latency + paths.getD d.slot 0)
  return latest tails

/-- Settles one slot, all of whose successors are settled. -/
def settlePath (g : Graph) (latencies : List Nat) (paths : Array Nat) (slot : Slot) :
    Except Fault (Array Nat) := do
  let tail ← longestTail paths (g.succsOf slot)
  match latencies[slot]? with
  | none => throw .missingSlot
  | some latency =>
    let path ← checkCycle (latency + tail)
    return paths.setIfInBounds slot path

/-- The longest path from each slot, given the latency of each. -/
def longestPaths (g : Graph) (latencies : List Nat) : Except ScheduleError (Array Nat) := do
  let order ← g.reverseTopologicalOrder
  liftFault (order.foldlM (g.settlePath latencies) (Array.replicate g.size 0))

end Graph

end DualIssue
