import DualIssue.Proofs.Checked
import DualIssue.Schedule

/-!
# Scheduling does not look at operands

Once a block is tracked, what counts of an instruction is its port, its latency and whether it is a delimiter. So
scheduling commutes with leaving the operands out of the records, errors and faults included.

* **`Record.bare`**: a record without operands.
* **`Board.step_bare`**: a cycle commutes with it; there is one equation for each function that a cycle calls.
* **`BlockSchedule.ofTracker_bare`**: so does scheduling a tracked block.
* **`scheduleBlock_bare`**: a whole block, where operands count for enlisting and for tracking only.
-/

namespace DualIssue

/-- The record with the operands of its instruction left out. All that scheduling reads or writes is still there. -/
def Record.bare (r : Record) : Record := { r with inst := { mnemonic := r.inst.mnemonic } }

/-- A change of one record that does not concern operands may be made before or after they are left out.
Compared entry by entry: the entry that changes by the hypothesis, all others trivially. -/
theorem map_bare_modify (records : Array Record) (slot : Slot) {f : Record → Record}
    (hf : ∀ r, (f r).bare = f r.bare) :
    (records.map Record.bare).modify slot f = (records.modify slot f).map Record.bare := by
  refine Array.ext_getElem? fun i => ?_
  rw [Array.getElem?_modify, Array.getElem?_map, Array.getElem?_map, Array.getElem?_modify]
  split
  · rw [Option.map_map, Option.map_map]
    congr 1
    funext r
    exact (hf r).symm
  · rfl

theorem map_bare_mapIdx (records : Array Record) {f : Nat → Record → Record}
    (hf : ∀ slot r, (f slot r).bare = f slot r.bare) :
    (records.map Record.bare).mapIdx f = (records.mapIdx f).map Record.bare := by
  refine Array.ext_getElem? fun i => ?_
  rw [Array.getElem?_mapIdx, Array.getElem?_map, Array.getElem?_map, Array.getElem?_mapIdx,
    Option.map_map, Option.map_map]
  congr 1
  funext r
  exact (hf i r).symm

namespace Board

def bare (b : Board) : Board := { b with records := b.records.map Record.bare }

variable (b : Board) (g : Graph)

/-- The record of a slot on the bare board is the bare record of that slot. All lemmas below come down to this
one: a function that looks into a record looks at a field that `bare` keeps. -/
theorem getElem?_bare (slot : Nat) : b.bare.records[slot]? = b.records[slot]?.map Record.bare :=
  Array.getElem?_map

theorem order_bare : b.bare.order = b.order := rfl

theorem ready_bare : b.bare.ready = b.ready := rfl

theorem size_bare : b.bare.records.size = b.records.size := Array.size_map

/-! ## Choosing

Everything that decides which instructions issue next reads flags, times, paths and ports of the records. The
functions are taken in the order in which they call each other, from a single record up to the choice of a
cycle, and each has the same value on the bare board. -/

/-- Whether an instruction is a delimiter depends on its mnemonic, which a bare record keeps. -/
theorem isDelimiter_bare : b.bare.isDelimiter = b.isDelimiter := by
  funext slot
  unfold isDelimiter
  rw [getElem?_bare]
  cases b.records[slot]? <;> rfl

theorem readyTime_bare : b.bare.readyTime = b.readyTime := by
  funext slot
  unfold readyTime
  rw [getElem?_bare]
  cases b.records[slot]? <;> rfl

theorem priority_bare : b.bare.priority = b.priority := by
  funext slot
  unfold priority
  rw [getElem?_bare]
  cases b.records[slot]? <;> rfl

theorem readyInner_bare : b.bare.readyInner = b.readyInner := by
  unfold readyInner
  rw [isDelimiter_bare]
  rfl

theorem candidatesAt_bare (time : Nat) : b.bare.candidatesAt time = b.candidatesAt time := by
  unfold candidatesAt
  rw [readyInner_bare, readyTime_bare]

/-- The candidates of the next cycle are found by ready time and by being no delimiter, so they are the same,
and so is the failure if nothing is ready. -/
theorem nextCandidates_bare : b.bare.nextCandidates = b.nextCandidates := by
  unfold nextCandidates
  simp only [candidatesAt_bare, readyInner_bare, readyTime_bare, isDelimiter_bare]
  rfl

theorem best_bare (slots : List Slot) : b.bare.best slots = b.best slots := by
  unfold best
  rw [priority_bare]

theorem pairsWith_bare (primary : Slot) : b.bare.pairsWith primary = b.pairsWith primary := by
  funext slot
  unfold pairsWith
  rw [getElem?_bare, getElem?_bare]
  cases b.records[primary]? <;> cases b.records[slot]? <;> rfl

/-- A cycle chooses the same instructions: the best candidate, and the best of those that pair with it. -/
theorem choose_bare (candidates : List Slot) : b.bare.choose candidates = b.choose candidates := by
  unfold choose
  simp only [best_bare, pairsWith_bare]

/-! ## Issuing

Issuing changes the board, so the equations now say that a change commutes with leaving the operands out. The
loops are folds over slots, and `foldlM_view` takes each equation for one slot to the whole fold, with its
failures. -/

/-- Issuing a slot stores the cycle in its record and appends it to the order; neither concerns operands. -/
theorem issue_bare (slot : Slot) : b.bare.issue slot = (b.issue slot).bare := by
  unfold issue bare
  dsimp only
  rw [map_bare_modify]
  intro r
  rfl

/-- All slots of a cycle are issued one after the other. Induction on the slots, with the board generalised. -/
theorem foldl_issue_bare (slots : List Slot) :
    slots.foldl issue b.bare = (slots.foldl issue b).bare := by
  induction slots generalizing b with
  | nil => rfl
  | cons slot slots ih =>
    rw [List.foldl_cons, issue_bare]
    exact ih (b.issue slot)

/-- The cycle in which a dependence is satisfied is the issue time of its source and a latency of the graph. -/
theorem arrival_bare : b.bare.arrival = b.arrival := by
  funext d
  unfold arrival
  rw [getElem?_bare]
  cases b.records[d.slot]? <;> rfl

/-- Releasing a successor asks whether all of its predecessors have issued, and if so stores a ready time. The
branches of `release` depend on orders, sizes and arrivals, which agree, so the split is the same on both sides;
only the last branch changes a record. -/
theorem release_bare (slot : Slot) : b.bare.release g slot = (b.release g slot).map bare := by
  unfold release
  rw [arrival_bare, size_bare, order_bare, ready_bare]
  split
  · rfl
  dsimp only
  split
  · -- an arrival that is out of range is the same fault on both sides
    cases (g.predsOf slot).mapM fun d => checkCycle (b.arrival d) with
    | error f => rfl
    | ok arrivals =>
      show (if slot < b.records.size then _ else _) =
        (if slot < b.records.size then _ else _ : Except _ _).map bare
      split
      · -- the new ready time goes into the record, whatever its operands
        unfold bare
        dsimp only
        rw [map_bare_modify]
        · rfl
        · intro r
          rfl
      · rfl
  · rfl

/-- Over all successors of a slot, by `foldlM_view` from `release_bare`. -/
theorem releaseSuccessors_bare (slot : Slot) :
    b.bare.releaseSuccessors g slot = (b.releaseSuccessors g slot).map bare := by
  refine foldlM_view bare ?_ (List.forall₂_same.mpr fun _ _ => rfl) b
  rintro b d _ rfl
  exact b.release_bare g d.slot

/-- A whole cycle issues its slots, releases their successors and moves the clock, each of which commutes. The
fault of a clock that leaves its range does not depend on the records. -/
theorem issueAll_bare (slots : List Slot) :
    b.bare.issueAll g slots = (b.issueAll g slots).map bare := by
  unfold issueAll
  have hrelease : slots.foldlM (releaseSuccessors g) (slots.foldl issue b.bare) =
      (slots.foldlM (releaseSuccessors g) (slots.foldl issue b)).map bare := by
    rw [foldl_issue_bare]
    refine foldlM_view bare ?_ (List.forall₂_same.mpr fun _ _ => rfl) _
    rintro b slot _ rfl
    exact b.releaseSuccessors_bare g slot
  dsimp only
  rw [hrelease]
  cases slots.foldlM (releaseSuccessors g) (slots.foldl issue b) with
  | error f => rfl
  | ok next =>
    show (checkCycle (next.time + 1) >>= _) = Except.map bare (checkCycle (next.time + 1) >>= _)
    cases checkCycle (next.time + 1) <;> rfl

/-- **A cycle does not look at operands**: it fails alike, and otherwise the boards after it agree. The
candidates and the choice are the same (`nextCandidates_bare`, `choose_bare`), and issuing them commutes
(`issueAll_bare`). -/
theorem step_bare : b.bare.step g = (b.step g).map bare := by
  unfold step
  rw [nextCandidates_bare]
  cases b.nextCandidates with
  | error e => rfl
  | ok next =>
    obtain ⟨time, candidates⟩ := next
    dsimp only [bind, Except.bind]
    rw [choose_bare]
    cases b.choose candidates with
    | nil => rfl
    | cons slot slots =>
      show liftFault (issueAll g ({ b with time } : Board).bare (slot :: slots)) =
        (liftFault (issueAll g ({ b with time } : Board) (slot :: slots))).map bare
      rw [issueAll_bare]
      cases issueAll g ({ b with time } : Board) (slot :: slots) <;> rfl

/-! ## Whole blocks

From a cycle to a block there are three more steps: the loop over cycles, the board it starts with and the check
of what it ends with. -/

/-- The loop over cycles. Induction on the cycles that are left; the test whether anything is still to be issued
compares the order with the number of records, which agree. -/
theorem run_bare (fuel : Nat) : b.bare.run g fuel = ((b.run g fuel).1.bare, (b.run g fuel).2) := by
  induction fuel generalizing b with
  | zero => rfl
  | succ fuel ih =>
    unfold run
    rw [size_bare, order_bare, step_bare]
    split
    · cases b.step g with
      | error e => rfl
      | ok next => exact ih next
    · rfl

/-- The first board: the slots without predecessors are ready in cycle 0, which the graph alone decides. -/
theorem start_bare (records : Array Record) :
    start g (records.map Record.bare) = (start g records).map bare := by
  unfold start
  rw [Array.size_map]
  split
  · refine congrArg Except.ok ?_
    unfold bare
    dsimp only
    rw [map_bare_mapIdx]
    intro slot r
    split <;> rfl
  · rfl

/-- The check at the end looks at the number of slots that issued and at whether the last record is a delimiter. -/
theorem verdict_bare : b.bare.verdict = b.verdict := by
  unfold verdict
  rw [size_bare, order_bare]
  split
  · rfl
  have hback : b.bare.records.back? = b.records.back?.map Record.bare := Array.back?_map
  rw [hback]
  cases b.records.back? with
  | none => rfl
  | some last => cases b.order.getLast? <;> rfl

end Board

/-- List scheduling is `start`, `run` and `verdict`. The records come back even if it fails, and then they agree
as well. -/
theorem listSchedule_bare (g : Graph) (records : Array Record) :
    listSchedule g (records.map Record.bare) =
      ((listSchedule g records).1.map Record.bare, (listSchedule g records).2) := by
  unfold listSchedule
  rw [Board.start_bare, Array.size_map]
  cases Board.start g records with
  | error f => rfl
  | ok board =>
    dsimp only [Except.map]
    rw [Board.run_bare]
    obtain ⟨b, result⟩ := board.run g records.size
    cases result with
    | error e => rfl
    | ok _ => exact Prod.ext rfl b.verdict_bare

namespace BlockSchedule

def bare (s : BlockSchedule) : BlockSchedule := { s with records := s.records.map Record.bare }

theorem withPaths_bare (records : Array Record) (paths : Array Nat) :
    withPaths (records.map Record.bare) paths = (withPaths records paths).map Record.bare := by
  refine map_bare_mapIdx records ?_
  intro slot r
  cases paths[slot]? <;> rfl

/-- **Scheduling a tracked block does not look at operands**: it fails alike, and the schedules agree. The graph
comes from the tracker, and of the records the longest paths need only the latencies. -/
theorem ofTracker_bare (t : Tracker) (records : Array Record) :
    ofTracker t (records.map Record.bare) = (ofTracker t records).map bare := by
  unfold ofTracker
  have hlatencies : (records.map Record.bare).toList.map (·.latency) =
      records.toList.map (·.latency) := by
    rw [Array.toList_map, List.map_map]
    rfl
  rw [hlatencies]
  cases liftFault t.finish with
  | error e => rfl
  | ok g =>
    dsimp only [bind, Except.bind]
    cases g.longestPaths (records.toList.map (·.latency)) with
    | error e => rfl
    | ok paths =>
      dsimp only
      rw [withPaths_bare, listSchedule_bare]
      obtain ⟨final, result⟩ := listSchedule g (withPaths records paths)
      cases result <;> rfl

theorem unscheduled_bare (records : Array Record) :
    unscheduled (records.map Record.bare) = (unscheduled records).bare := by
  unfold unscheduled bare
  rw [Array.toList_map, List.map_map]
  rfl

end BlockSchedule

/-- Operands count when a block is enlisted and when it is tracked, and then no more. So the schedule up to
operands is a function of the bare records and of the tracker alone. -/
theorem scheduleBlock_bare (model : MachineModel) (options : Options) (block : List Instruction) :
    (scheduleBlock model options block).map BlockSchedule.bare = do
      let records ← (enlist model 0 block).map (List.map Record.bare)
      if options.enabled then
        let t ← liftFault (Tracker.ofBlock options.latencies block)
        BlockSchedule.ofTracker t records.toArray
      else return .unscheduled records.toArray := by
  unfold scheduleBlock
  cases enlist model 0 block with
  | error e => rfl
  | ok records =>
    have hrecords : (records.map Record.bare).toArray = records.toArray.map Record.bare :=
      List.map_toArray.symm
    show (if options.enabled then _ else _ : Except _ _).map _ = if options.enabled then _ else _
    rw [hrecords]
    -- with scheduling off nothing is tracked, and program order is the same
    cases options.enabled with
    | false => exact congrArg Except.ok (BlockSchedule.unscheduled_bare records.toArray).symm
    | true =>
      cases Tracker.ofBlock options.latencies block with
      | error f => rfl
      | ok t => exact (BlockSchedule.ofTracker_bare t records.toArray).symm

end DualIssue
