import DualIssue.Error
import DualIssue.Graph.Basic
import DualIssue.Record

/-!
# List scheduling

Greedy issue in order of time. An instruction is ready when all of its predecessors have issued; in
each cycle the ready instruction with the longest path goes first, and the best of the others that
the ports allow goes with it. A block delimiter waits until nothing else is left.

The records come from outside, so nothing is assumed of them: a record may name another slot than its
position, and then it can be paired with itself.
-/

namespace DualIssue

/-- The state between two cycles. -/
structure Board where
  records : Array Record
  /-- The slots whose predecessors have all issued and which have not, in ascending order. -/
  ready : List Slot := []
  /-- The slots that have issued, first to last. -/
  order : List Slot := []
  time : Nat := 0
  deriving DecidableEq, Repr

/-- Puts a slot at its place in an ascending list. -/
def insertAscending (slot : Slot) : List Slot → List Slot
  | [] => [slot]
  | s :: rest => if slot < s then slot :: s :: rest else s :: insertAscending slot rest

theorem mem_insertAscending {slot s : Slot} {slots : List Slot} :
    s ∈ insertAscending slot slots ↔ s = slot ∨ s ∈ slots := by
  induction slots with
  | nil => simp [insertAscending]
  | cons head rest ih =>
    unfold insertAscending
    split
    · simp
    · simp only [List.mem_cons, ih]
      grind

namespace Board

/-! ### Choosing what to issue -/

def isDelimiter (b : Board) (slot : Slot) : Bool :=
  b.records[slot]?.any (·.inst.isDelimiter)

/-- The cycle from which the slot may issue. -/
def readyTime (b : Board) (slot : Slot) : Nat :=
  (b.records[slot]?.map (·.readyTime)).getD 0

/-- The longest path from the slot. -/
def priority (b : Board) (slot : Slot) : Nat :=
  (b.records[slot]?.map (·.priority)).getD 0

/-- The ready slots that are no delimiters. -/
def readyInner (b : Board) : List Slot := b.ready.filter fun slot => !b.isDelimiter slot

/-- The slots that may issue in a cycle, delimiters apart. -/
def candidatesAt (b : Board) (time : Nat) : List Slot :=
  b.readyInner.filter fun slot => b.readyTime slot ≤ time

/-- The next cycle with something to issue, and what may issue in it. If no inner instruction is
ready, the first ready delimiter is. -/
def nextCandidates (b : Board) : Except ScheduleError (Nat × List Slot) :=
  match b.candidatesAt b.time with
  | slot :: rest => .ok (b.time, slot :: rest)
  | [] =>
    match (b.readyInner.map b.readyTime).min? with
    | some earliest =>
      let time := max b.time earliest
      .ok (time, b.candidatesAt time)
    | none =>
      match b.ready.find? b.isDelimiter with
      | some slot => .ok (max b.time (b.readyTime slot), [slot])
      | none => .error (.noReadyInstruction b.time)

/-- The slot with the longest path, the first of those if there are several. -/
def best (b : Board) : List Slot → Option Slot
  | [] => none
  | slot :: rest =>
    some (rest.foldl (fun top s => if b.priority top < b.priority s then s else top) slot)

/-- May the instruction in `slot` issue together with the one in `primary`? -/
def pairsWith (b : Board) (primary slot : Slot) : Bool :=
  match b.records[primary]?, b.records[slot]? with
  | some p, some r => r.slot ≠ primary && !p.port.conflictsWith r.port
  | _, _ => false

/-- What issues in one cycle: the best candidate and the best that can go with it. -/
def choose (b : Board) (candidates : List Slot) : List Slot :=
  match b.best candidates with
  | none => []
  | some primary => primary :: (b.best (candidates.filter (b.pairsWith primary))).toList

/-! ### Issuing -/

/-- Issues one slot at the current time. -/
def issue (b : Board) (slot : Slot) : Board :=
  { b with
    records := b.records.modify slot fun r => { r with issueTime := some b.time }
    ready := b.ready.filter (· ≠ slot)
    order := b.order ++ [slot] }

/-- When the result of a predecessor is there: its latency counts for a read after write, all other
hazards only ask for a later cycle. -/
def arrival (b : Board) (d : Dependency) : Nat :=
  match b.records[d.slot]? with
  | none => 0
  | some producer =>
    producer.issueTime.getD 0 + (if d.hazard = .raw then producer.latency else 1) + d.latency

/-- Makes a successor ready if this was the last of its predecessors to issue. -/
def release (g : Graph) (b : Board) (slot : Slot) : Except Fault Board :=
  if slot ∈ b.order ∨ slot ∈ b.ready then .ok b
  else
    let preds := g.predsOf slot
    if preds.all (·.slot ∈ b.order) then do
      let arrivals ← preds.mapM fun d => checkCycle (b.arrival d)
      if slot < b.records.size then
        return { b with
          records := b.records.modify slot fun r => { r with readyTime := latest arrivals }
          ready := insertAscending slot b.ready }
      else throw .missingSlot
    else .ok b

/-- Releases the successors of a slot, in the order of its outgoing edges. -/
def releaseSuccessors (g : Graph) (b : Board) (slot : Slot) : Except Fault Board :=
  (g.succsOf slot).foldlM (fun b d => b.release g d.slot) b

/-- Issues the chosen slots together, then releases their successors and goes on to the next cycle. -/
def issueAll (g : Graph) (b : Board) (slots : List Slot) : Except Fault Board := do
  let b := slots.foldl issue b
  let b ← slots.foldlM (releaseSuccessors g) b
  let time ← checkCycle (b.time + 1)
  return { b with time }

def step (g : Graph) (b : Board) : Except ScheduleError Board := do
  let (time, candidates) ← b.nextCandidates
  match b.choose candidates with
  | [] => throw (.noReadyInstruction time)
  | slots => liftFault (issueAll g { b with time } slots)

/-! ### Whole blocks -/

/-- The slots without predecessors are ready at once. Every record needs a node. -/
def start (g : Graph) (records : Array Record) : Except Fault Board :=
  if records.size ≤ g.size then
    let roots := (List.range records.size).filter fun slot => (g.predsOf slot).isEmpty
    .ok {
      records := records.mapIdx fun slot r =>
        if (g.predsOf slot).isEmpty then { r with readyTime := 0 } else r
      ready := roots }
  else .error .missingSlot

/-- Runs cycles until every record has issued, at most `fuel` of them. Each cycle issues at least one
slot, so as many cycles as records are enough. The board is returned also where an error stops it. -/
def run (g : Graph) : Nat → Board → Board × Except ScheduleError Unit
  | 0, b => (b, .ok ())
  | fuel + 1, b =>
    if b.order.length < b.records.size then
      match b.step g with
      | .ok next => run g fuel next
      | .error e => (b, .error e)
    else (b, .ok ())

/-- Is the finished order as long as the block, and is a delimiter that ends the block last? -/
def verdict (b : Board) : Except ScheduleError (List Slot) :=
  if b.order.length ≠ b.records.size then
    .error (.sizeMismatch b.records.size b.order.length)
  else
    match b.records.back?, b.order.getLast? with
    | some last, some issued =>
      if last.inst.isDelimiter ∧ issued ≠ last.slot then .error (.delimiterNotLast last.slot)
      else .ok b.order
    | _, _ => .ok b.order

end Board

/-- Schedules records over a graph that has its successor lists: the records with their ready and
issue times, and the order of issue. After an error the records are as the failing cycle found them. -/
def listSchedule (g : Graph) (records : Array Record) :
    Array Record × Except ScheduleError (List Slot) :=
  match Board.start g records with
  | .error f => (records, .error (.fault f))
  | .ok board =>
    match board.run g records.size with
    | (b, .ok ()) => (b.records, b.verdict)
    | (b, .error e) => (b.records, .error e)

end DualIssue
