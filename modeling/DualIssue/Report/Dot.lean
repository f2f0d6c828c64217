import DualIssue.Schedule

/-!
# Graph drawings

A schedule as a Graphviz digraph: one record node per instruction in issue order, then one arrow for
each pair of slots that a dependence joins.
-/

namespace DualIssue.Dot

/-- Characters with a meaning inside a label get a backslash. -/
def escape (s : String) : String :=
  String.ofList (s.toList.flatMap fun c =>
    if c ∈ ['\x7b', '\x7d', '|', '<', '>', '"'] then ['\\', c] else [c])

/-- A number, or a dash where there is none. -/
def numberText : Option Nat → String
  | some n => toString n
  | none => "-"

def nodeName (slot : Slot) : String := "LIR" ++ toString slot

def nodeLine (r : Record) : String :=
  nodeName r.slot ++ " [shape=record, label=\"\x7b" ++ toString r.slot ++ ": " ++ escape r.inst.text
    ++ " | ScheduledTime:" ++ numberText r.issueTime
    ++ " | IssuePort:" ++ r.port.text
    ++ " | Latency:" ++ toString r.latency
    ++ " | LongestPath:" ++ numberText r.longestPath ++ "\x7d\"]"

def arrowLine (source target : Slot) : String := nodeName source ++ "->" ++ nodeName target

/-- The slots that depend on a slot, each once, in the order of their first edge. -/
def targetsOf (g : Graph) (slot : Slot) : List Slot :=
  ((g.succsOf slot).map (·.slot)).foldl
    (fun seen target => if target ∈ seen then seen else seen ++ [target]) []

/-- The arrows out of a record's slot; none if the graph has no such slot. -/
def arrowLines (g : Graph) (r : Record) : List String :=
  if r.slot < g.size then (targetsOf g r.slot).map (arrowLine r.slot) else []

/-- All lines of the drawing of a block whose records issue in this order. -/
def lines (name : String) (g : Graph) (issued : List Record) : List String :=
  ["digraph BB" ++ name ++ " \x7b", "forcelabels = true"]
    ++ issued.map nodeLine ++ issued.flatMap (arrowLines g) ++ ["\x7d"]

def render (name : String) (s : BlockSchedule) : Except Fault String := do
  let issued ← s.issued
  return String.join ((lines name s.graph issued).map (· ++ "\n"))

end DualIssue.Dot
