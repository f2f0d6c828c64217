import DualIssue.Report.Column
import DualIssue.Report.Dot
import DualIssue.Report.EditDistance

/-!
# Listings

The table of issued instructions, block by block, and the statistics line of a block.
-/

namespace DualIssue.CommandLine

/-- Cuts records into blocks; every delimiter ends one. -/
def splitBlocks : List Record → List (List Record)
  | [] => []
  | r :: rest =>
    if r.inst.isDelimiter then [r] :: splitBlocks rest
    else
      match splitBlocks rest with
      | [] => [[r]]
      | block :: blocks => (r :: block) :: blocks

def row (cycle slot port latency path inst : String) : String :=
  alignRight 5 cycle ++ "  " ++ alignRight 4 slot ++ "  " ++ alignRight 6 port ++ "  "
    ++ alignRight 3 latency ++ "  " ++ alignRight 4 path ++ "  " ++ inst

def headRow : String := row "cycle" "slot" "port" "lat" "path" "instruction"

def recordRow (r : Record) : String :=
  row (Dot.numberText r.issueTime) (toString r.slot) r.port.text (toString r.latency)
    (Dot.numberText r.longestPath) r.inst.text

/-- The lines of the table: blocks are divided by an empty line. -/
def tableLines (blocks : List (List Record)) : List String :=
  headRow :: [""].intercalate (blocks.map fun block => block.map recordRow)

/-- The number of cycles a block takes, or a dash if it was not scheduled. -/
def cyclesText (block : List Record) : String :=
  Dot.numberText ((BlockSchedule.lastCycle block).map (· + 1))

def statisticsLine (index : Nat) (block : List Record) : String :=
  "block " ++ toString index ++ ": " ++ toString block.length ++ " instructions, "
    ++ cyclesText block ++ " cycles, edit distance "
    ++ fixedText 1 (editDistance (block.map (·.slot))) ++ "%"

/-- The listing of emitted records, with the statistics of each block if asked for. -/
def listing (stats : Bool) (records : List Record) : String :=
  let blocks := splitBlocks records
  let statistics := if stats then blocks.mapIdx statisticsLine else []
  String.join ((tableLines blocks ++ statistics).map (· ++ "\n"))

end DualIssue.CommandLine
