import DualIssue.Latency

/-!
# Options

How a block is to be scheduled, and what is to be reported about it.
-/

namespace DualIssue

/-- A directory for graph drawings. A drawing can be written there only if the directory exists. -/
structure DumpDir where
  path : String
  present : Bool := true
  deriving DecidableEq, Repr

def DumpDir.file (dir : DumpDir) (name : String) : String :=
  if dir.path.isEmpty || dir.path.endsWith "/" then dir.path ++ name
  else dir.path ++ "/" ++ name

/-- How blocks are scheduled and reported. -/
structure Options where
  /-- When false, instructions keep their program order. -/
  enabled : Bool := true
  latencies : LatencyTable := {}
  /-- Report size and reordering of each block. -/
  statistics : Bool := false
  /-- Where a drawing of each block's graph goes. -/
  dumpDir : Option DumpDir := none
  deriving DecidableEq, Repr

end DualIssue
