import DualIssue.Proofs.Makespan
import DualIssue.Session

/-!
# Streams of blocks

A session is used by calls in any order. The calls divide the accepted instructions into runs, of which a
delimiter or a flush closes one and a discard drops one. Whatever came before, a run is scheduled as a
block of its own, so nothing that the tracker knew of an earlier run has any influence on a later one.

* **`Runs`**: the division of the instructions, told from the calls alone.
* **`Session.Holds`**: what a session has emitted, and what it still keeps, as the runs say.
* **`Session.Holds.perform`**: one call keeps this, and answers what it should.
* **`session_refines_scheduleBlock`**: hence every sequence of calls does.
-/

namespace DualIssue

open DualIssue.Graph DualIssue.Board

/-! ## Calls and runs

`Runs` is the specification: which instructions belong together follows from the calls and from what the model
has, and nothing is scheduled for it. The lemmas say that closed runs stay and that the open one has no
delimiter. -/

inductive Call where
  | append (inst : Instruction)
  | flush
  | discard
  deriving DecidableEq, Repr

namespace Session

/-- A call leaves a session behind and is answered, an append by the slot of its instruction. -/
def perform (s : Session) : Call → Session × Except ScheduleError (Option Slot)
  | .append inst => ((s.append inst).1, (s.append inst).2.map some)
  | .flush => (s.flush.1, s.flush.2.map fun () => none)
  | .discard => (s.discard, .ok none)

def after (s : Session) (calls : List Call) : Session :=
  calls.foldl (fun s call => (s.perform call).1) s

theorem after_concat (s : Session) (calls : List Call) (call : Call) :
    s.after (calls ++ [call]) = ((s.after calls).perform call).1 := by
  simp [after]

end Session

/-- Accepted instructions, divided into the runs that have been closed and the one that is open. -/
structure Runs where
  closed : List (List Instruction) := []
  current : List Instruction := []
  deriving DecidableEq, Repr

namespace Runs

def close (runs : Runs) : Runs := { closed := runs.closed ++ [runs.current] }

def extend (runs : Runs) (inst : Instruction) : Runs :=
  { runs with current := runs.current ++ [inst] }

def take (model : MachineModel) (runs : Runs) : Call → Runs
  | .append inst =>
    -- a refused instruction is in no run, a delimiter in the one that it closes
    if model inst.mnemonic inst.shape = none then runs
    else if inst.isDelimiter then (runs.extend inst).close
    else runs.extend inst
  -- also an empty run is closed, as a block of nothing
  | .flush => runs.close
  | .discard => { runs with current := [] }

def answer (model : MachineModel) (runs : Runs) : Call → Except ScheduleError (Option Slot)
  | .append inst =>
    if model inst.mnemonic inst.shape = none then .error (.unmodeled inst.mnemonic inst.shape)
    else .ok (some runs.current.length)
  | .flush | .discard => .ok none

def ofCalls (model : MachineModel) (calls : List Call) : Runs := calls.foldl (take model) {}

theorem ofCalls_concat (model : MachineModel) (calls : List Call) (call : Call) :
    ofCalls model (calls ++ [call]) = (ofCalls model calls).take model call := by
  simp [ofCalls]

/-- No cycle count of a closed run is too large. -/
def Fits (model : MachineModel) (options : Options) (runs : Runs) : Prop :=
  ∀ run ∈ runs.closed, scheduleBlock model options run ≠ .error (.fault .overflow)

instance (model : MachineModel) (options : Options) (runs : Runs) :
    Decidable (runs.Fits model options) :=
  inferInstanceAs (Decidable
    (∀ run ∈ runs.closed, scheduleBlock model options run ≠ .error (.fault .overflow)))

theorem take_append (model : MachineModel) (runs : Runs) (inst : Instruction) :
    runs.take model (.append inst) =
      if model inst.mnemonic inst.shape = none then runs
      else if inst.isDelimiter then (runs.extend inst).close
      else runs.extend inst := rfl

theorem answer_append (model : MachineModel) (runs : Runs) (inst : Instruction) :
    runs.answer model (.append inst) =
      if model inst.mnemonic inst.shape = none then .error (.unmodeled inst.mnemonic inst.shape)
      else .ok (some runs.current.length) := rfl

/-- A call closes at most one run, and behind those that are closed. -/
theorem closed_prefix_take (model : MachineModel) (runs : Runs) (call : Call) :
    runs.closed <+: (runs.take model call).closed := by
  cases call with
  | append inst =>
    rw [take_append]
    split
    · exact List.prefix_rfl
    · split
      · exact List.prefix_append _ _
      · exact List.prefix_rfl
  | flush => exact List.prefix_append _ _
  | discard => exact List.prefix_rfl

theorem Fits.of_take {model : MachineModel} {options : Options} {runs : Runs} {call : Call}
    (h : (runs.take model call).Fits model options) : runs.Fits model options := fun run hrun =>
  h run ((closed_prefix_take model runs call).subset hrun)

/-- The open run has no delimiter, since a delimiter closes it. -/
def Open (runs : Runs) : Prop := ∀ inst ∈ runs.current, inst.isDelimiter ≠ true

/-- A call leaves the open run without delimiters: one that is appended closes the run. -/
theorem Open.take {runs : Runs} (h : runs.Open) (model : MachineModel) (call : Call) :
    (runs.take model call).Open := by
  cases call with
  | append inst =>
    rw [take_append]
    split
    · exact h
    · split
      · exact fun _ hmem => nomatch hmem
      · rename_i hdelim
        intro other hother
        rcases List.mem_append.mp hother with hold | hnew
        · exact h other hold
        · rw [List.mem_singleton.mp hnew]
          exact hdelim
  | flush | discard => exact fun _ hmem => nomatch hmem

theorem open_ofCalls (model : MachineModel) (calls : List Call) : (ofCalls model calls).Open := by
  induction calls using List.reverseRecOn with
  | nil => exact fun _ hmem => nomatch hmem
  | append_singleton calls call ih =>
    rw [ofCalls_concat]
    exact ih.take model call

end Runs

/-! ## Recording one more instruction

A session lists and records its instructions as they come, a block is listed and recorded at once. The two agree
if a block with one more instruction is the block, and then the instruction. -/

theorem MachineModel.entryOf_of_modeled {model : MachineModel} {inst : Instruction}
    (h : model inst.mnemonic inst.shape ≠ none) : ∃ entry, model.entryOf inst = .ok entry := by
  obtain ⟨entry, hentry⟩ := Option.ne_none_iff_exists'.mp h
  exact ⟨entry, by rw [entryOf, hentry]⟩

/-- An instruction after a block without delimiters is listed after the block. Induction on the block; a
delimiter in it would now be misplaced. -/
theorem enlist_concat {model : MachineModel} {slot : Slot} {block : List Instruction}
    {records : List Record} (h : enlist model slot block = .ok records)
    (hopen : ∀ inst ∈ block, inst.isDelimiter ≠ true) {inst : Instruction} {entry : MachineEntry}
    (hentry : model.entryOf inst = .ok entry) :
    enlist model slot (block ++ [inst]) =
      .ok (records ++ [Record.ofEntry (slot + block.length) inst entry]) := by
  induction block generalizing slot records with
  | nil =>
    cases h
    simp [enlist, hentry, bind, Except.bind, pure, Except.pure]
  | cons head rest ih =>
    obtain ⟨headEntry, hhead, h⟩ := Except.bind_eq_ok_iff.mp h
    -- with `inst` behind it, not even the last of the block could be a delimiter
    have hdelim : head.isDelimiter = false := by simpa using hopen head List.mem_cons_self
    split at h
    · cases h
    · obtain ⟨tail, htail, h⟩ := Except.bind_eq_ok_iff.mp h
      cases h
      have hrest := ih htail fun other hother => hopen other (List.mem_cons_of_mem _ hother)
      have hslot : slot + 1 + rest.length = slot + (head :: rest).length :=
        Nat.add_right_comm slot 1 rest.length
      rw [hslot] at hrest
      rw [List.cons_append, enlist, hhead]
      simp [hdelim, hrest, bind, Except.bind, pure, Except.pure]

theorem Tracker.recordedBlock_concat (latencies : LatencyTable) (block : List Instruction)
    (inst : Instruction) :
    recordedBlock latencies (block ++ [inst]) =
      (recordedBlock latencies block).recordedInstruction inst := by
  simp [recordedBlock]

/-! ## Reporting a finished block

After it is scheduled a block is emitted, counted and drawn. None of this fails on a schedule: the order has
existing slots, and the count of cycles fits because the clock did. -/

def issuedBlock (model : MachineModel) (options : Options) (block : List Instruction) :
    Except ScheduleError (List Record) := do
  let schedule ← scheduleBlock model options block
  liftFault schedule.issued

theorem issuedBlock_eq_ok {model : MachineModel} {options : Options} {block : List Instruction}
    {s : BlockSchedule} {issued : List Record} (hschedule : scheduleBlock model options block = .ok s)
    (hissued : s.issued = .ok issued) : issuedBlock model options block = .ok issued := by
  unfold issuedBlock
  rw [hschedule]
  show liftFault s.issued = _
  rw [hissued]
  rfl

/-- An order of existing slots can be followed. Induction on the order. -/
theorem BlockSchedule.issued_eq_ok (s : BlockSchedule) (h : ∀ slot ∈ s.order, slot < s.records.size) :
    s.issued = .ok (s.order.filterMap (s.records[·]?)) := by
  unfold issued
  generalize s.order = order at h ⊢
  induction order with
  | nil => rfl
  | cons slot rest ih =>
    have hslot := Array.getElem?_eq_getElem (h slot List.mem_cons_self)
    rw [List.mapM_cons, ih fun other hother => h other (List.mem_cons_of_mem _ hother),
      List.filterMap_cons, hslot]
    rfl

/-- **A schedule can be followed and its length be counted.** Both are read off the finished board: its order
has all slots, and its clock is past every cycle. -/
theorem issued_and_cycles_of_scheduleBlock {model : MachineModel} {options : Options}
    {block : List Instruction} {s : BlockSchedule} (henabled : options.enabled = true)
    (h : scheduleBlock model options block = .ok s) :
    s.issued = .ok (s.order.filterMap (s.records[·]?)) ∧ ∃ n, s.cycles = .ok n := by
  obtain ⟨records, paths, hrecords, hcloses, _, hlist⟩ := scheduleBlock_eq_ok henabled h
  have hsize := size_eq_of_enlist hrecords hcloses
  rw [← BlockSchedule.size_withPaths _ paths] at hsize
  have hpos := BlockSchedule.positioned_withPaths (positioned_of_enlist hrecords) paths
  -- the clock is checked after every cycle, so it fits at the end
  obtain ⟨b, hb, hfits⟩ := finished_of_listSchedule (P := fun b => b.time ≤ maxCycle)
    hcloses.inverted hsize hpos
    (fun _ hstart => by rw [(nothing_issued_of_start hstart).2]; exact Nat.zero_le _)
    (fun _ _ _ _ _ _ _ _ hi => hi.time_fits) hlist
  obtain ⟨n, hn, _⟩ := hb.cycles_eq_ok hfits s.graph
  refine ⟨s.issued_eq_ok ?_, n, hn⟩
  intro slot hslot
  rw [← hb.records_eq, hb.sound.size_eq]
  exact List.mem_range.mp (hb.order_perm.mem_iff.mp hslot)

theorem issuedBlock_nil {model : MachineModel} {options : Options} {issued : List Record}
    (henabled : options.enabled = true) (h : issuedBlock model options [] = .ok issued) :
    issued = [] := by
  obtain ⟨schedule, hschedule, hissued⟩ := Except.bind_eq_ok_iff.mp h
  have horder : schedule.order = [] :=
    (scheduled_of_scheduleBlock henabled hschedule).order_perm.eq_nil
  rw [(issued_and_cycles_of_scheduleBlock henabled hschedule).1, horder] at hissued
  cases hissued
  rfl

/-- What can be followed can be drawn, whether or not there is a directory to write to. -/
theorem dumpReport_eq_ok {s : BlockSchedule} {records : List Record}
    (hissued : s.issued = .ok records) (dir : DumpDir) (name : String) :
    ∃ report, dumpReport dir name s = .ok report := by
  have hrender : ∃ drawing, Dot.render name s = .ok drawing := by
    unfold Dot.render
    rw [hissued]
    exact ⟨_, rfl⟩
  obtain ⟨drawing, hdrawing⟩ := hrender
  unfold dumpReport
  rw [hdrawing]
  cases dir.present <;> exact ⟨_, rfl⟩

/-- So the report of a block succeeds, with or without statistics and with or without a drawing. -/
theorem blockReport_eq_ok {s : BlockSchedule} {records : List Record} {n : Nat}
    (hissued : s.issued = .ok records) (hcycles : s.cycles = .ok n) (options : Options)
    (name : String) : ∃ report, blockReport options name s = .ok report := by
  unfold blockReport
  -- both ways to the statistics go on to the drawing
  extract_lets conclude
  have hconclude : ∀ messages, ∃ report, conclude messages = .ok report := by
    intro messages
    unfold conclude
    split
    · exact ⟨_, rfl⟩
    · rename_i dir _
      obtain ⟨report, hreport⟩ := dumpReport_eq_ok hissued dir name
      rw [hreport]
      exact ⟨_, rfl⟩
  split
  · unfold BlockSchedule.statistics
    rw [hcycles]
    exact hconclude _
  · exact hconclude []

/-! ## Sessions

`Holds` ties a session to its runs. It is true at the start, each of the three calls keeps it, and what a call
answers is read off it. For a flush this takes the sections above, and an append is a flush after it if the
instruction is a delimiter. -/

namespace Session

/-- A session that was started for a model, options and an encoder is where the runs say: each closed run
has been emitted as a block of its own, and of the open one there are fresh records and the graph of its
instructions alone. -/
structure Holds (model : MachineModel) (options : Options) (encoder : Encoder) (runs : Runs)
    (s : Session) : Prop where
  model_eq : s.model = model
  options_eq : s.options = options
  refusal_eq : s.encoder.refusal = encoder.refusal
  emitted_eq : ∃ blocks, runs.closed.mapM (issuedBlock model options) = .ok blocks ∧
    s.encoder.emitted = encoder.emitted ++ blocks.flatten
  blocks_eq : s.blocks = (runs.closed.filter (· ≠ [])).length
  pending_eq : enlist model 0 runs.current = .ok s.pending.toList
  tracker_eq : Tracker.ofBlock options.latencies runs.current = .ok s.tracker

theorem holds_start (model : MachineModel) (options : Options) (encoder : Encoder) :
    Holds model options encoder {} (start model encoder options) where
  model_eq := rfl
  options_eq := rfl
  refusal_eq := rfl
  emitted_eq := ⟨[], rfl, by simp [start]⟩
  blocks_eq := rfl
  pending_eq := rfl
  tracker_eq := rfl

/-- A schedule that can be followed and counted is emitted whole. -/
theorem deliver_eq_ok {s : Session} {schedule : BlockSchedule} {issued : List Record} {n : Nat}
    (haccepts : ∀ held, s.encoder.refusal held = none) (hissued : schedule.issued = .ok issued)
    (hcycles : schedule.cycles = .ok n) (name : String) :
    ∃ journal files, s.deliver name schedule =
      ({ s with
          journal, files
          encoder := { s.encoder with emitted := s.encoder.emitted ++ issued } }, .ok ()) := by
  obtain ⟨report, hreport⟩ := blockReport_eq_ok hissued hcycles s.options name
  refine ⟨s.journal ++ report.messages, s.files ++ report.files, ?_⟩
  unfold deliver
  rw [hreport, hissued]
  simp only [log, Encoder.emitAll_of_no_refusal haccepts]
  rfl

/-- What the model does not have is refused, and only the journal changes. -/
theorem append_of_unmodeled {s : Session} {inst : Instruction}
    (h : s.model inst.mnemonic inst.shape = none) :
    s.append inst =
      (s.log [unmodeledMessage inst], .error (.unmodeled inst.mnemonic inst.shape)) := by
  unfold append MachineModel.entryOf
  rw [h]

theorem append_of_modeled {s : Session} {inst : Instruction} {entry : MachineEntry}
    (henabled : s.options.enabled = true) (h : s.model.entryOf inst = .ok entry) :
    s.append inst = s.enqueue inst entry := by
  unfold append
  rw [h]
  exact if_pos henabled

section Holds

variable {model : MachineModel} {options : Options} {encoder : Encoder} {runs : Runs} {s : Session}

theorem Holds.tracker_eq_recorded (h : Holds model options encoder runs s) :
    s.tracker = Tracker.recordedBlock options.latencies runs.current := by
  have htracker := h.tracker_eq
  rw [Tracker.ofBlock_eq_ok] at htracker
  exact (Except.ok.inj htracker).symm

theorem Holds.log (h : Holds model options encoder runs s) (messages : List Message) :
    Holds model options encoder runs (s.log messages) :=
  ⟨h.model_eq, h.options_eq, h.refusal_eq, h.emitted_eq, h.blocks_eq, h.pending_eq, h.tracker_eq⟩

/-- One more instruction goes to the end of the open run, whose length is its slot. -/
theorem Holds.extend (h : Holds model options encoder runs s) (hopen : runs.Open)
    {inst : Instruction} {entry : MachineEntry} (hentry : model.entryOf inst = .ok entry) :
    ∃ tracker, s.tracker.recordInstruction inst = .ok tracker ∧
      s.tracker.graph.size = runs.current.length ∧
      Holds model options encoder (runs.extend inst)
        { s with tracker, pending := s.pending.push (.ofEntry runs.current.length inst entry) } := by
  have htracker := h.tracker_eq_recorded
  obtain ⟨htidy, hsize⟩ := Tracker.tidy_recordedBlock options.latencies runs.current
  rw [htracker]
  refine ⟨_, (Tracker.recordInstruction_eq_ok htidy inst).1, hsize, ?_⟩
  refine { h with pending_eq := ?_, tracker_eq := ?_ }
  · show enlist model 0 (runs.current ++ [inst]) = _
    rw [enlist_concat h.pending_eq hopen hentry, Nat.zero_add, Array.toList_push]
  · show Tracker.ofBlock options.latencies (runs.current ++ [inst]) = _
    rw [Tracker.ofBlock_eq_ok, Tracker.recordedBlock_concat]

/-- To queue an instruction is to extend the open run, and to flush if it is a delimiter. -/
theorem Holds.enqueue_eq (h : Holds model options encoder runs s) (hopen : runs.Open)
    {inst : Instruction} {entry : MachineEntry} (hentry : model.entryOf inst = .ok entry) :
    ∃ s', Holds model options encoder (runs.extend inst) s' ∧
      s.enqueue inst entry =
        if inst.isDelimiter then (s'.flush.1, s'.flush.2.map fun () => runs.current.length)
        else (s', .ok runs.current.length) := by
  obtain ⟨tracker, htracker, hsize, hholds⟩ :=
    (h.log (s.tracker.instructionMessages inst)).extend hopen hentry
  have hslot : s.tracker.graph.size = runs.current.length := hsize
  refine ⟨_, hholds, ?_⟩
  unfold enqueue
  simp only [htracker, hslot]

theorem Holds.discard (h : Holds model options encoder runs s) :
    Holds model options encoder { runs with current := [] } s.discard := by
  -- a reset keeps the latencies of the tracker, which have to be those of the options
  have hlatencies : s.tracker.latencies = options.latencies := by
    rw [h.tracker_eq_recorded]
    exact (Tracker.priced_recordedBlock options.latencies runs.current).1
  refine { h with pending_eq := rfl, tracker_eq := ?_ }
  show Except.ok (Tracker.start options.latencies) = .ok s.tracker.reset
  rw [Tracker.reset, hlatencies]

/-- What a session becomes when its open run is emitted as `issued`. -/
def closing (s : Session) (issued : List Record) (journal : List Message)
    (files : List (String × String)) : Session :=
  { s with
    encoder := { s.encoder with emitted := s.encoder.emitted ++ issued }
    tracker := .start s.options.latencies
    pending := #[]
    blocks := if s.pending.isEmpty then s.blocks else s.blocks + 1
    nextSlot := 0
    journal, files }

/-- There is a record for each instruction of the open run. -/
theorem Holds.isEmpty_iff (h : Holds model options encoder runs s) :
    s.pending.isEmpty = true ↔ runs.current = [] := by
  have hlength : s.pending.toList.length = runs.current.length := length_of_enlist h.pending_eq
  rw [Array.isEmpty_iff_size_eq_zero, ← Array.length_toList, hlength, List.length_eq_zero_iff]

/-- The open run becomes a closed one that has been emitted. A block is counted unless the run was empty. -/
theorem Holds.closing (h : Holds model options encoder runs s) {issued : List Record}
    (hissued : issuedBlock model options runs.current = .ok issued) (journal : List Message)
    (files : List (String × String)) :
    Holds model options encoder runs.close (s.closing issued journal files) := by
  obtain ⟨blocks, hblocks, hemitted⟩ := h.emitted_eq
  refine { h with emitted_eq := ?_, blocks_eq := ?_, pending_eq := rfl, tracker_eq := ?_ }
  · refine ⟨blocks ++ [issued], mapM_concat_eq_ok hblocks hissued, ?_⟩
    simp [Session.closing, hemitted]
  · -- an empty run is closed but not counted
    show (if s.pending.isEmpty = true then s.blocks else s.blocks + 1) = _
    by_cases hcurrent : runs.current = [] <;> simp [h.isEmpty_iff, h.blocks_eq, Runs.close, hcurrent]
  · rw [← h.options_eq]
    rfl

variable (henabled : options.enabled = true)
include henabled

/-- The tracker and the records of the open run are what scheduling it as a block starts from. -/
theorem Holds.ofTracker_eq (h : Holds model options encoder runs s) :
    BlockSchedule.ofTracker s.tracker s.pending = scheduleBlock model options runs.current := by
  unfold scheduleBlock
  rw [h.pending_eq, h.tracker_eq]
  show _ = if options.enabled then _ else _
  rw [if_pos henabled]
  rfl

/-- The open run can be scheduled unless a cycle count is too large, and then it can be emitted. Nothing in it
is misplaced, since it has been listed. -/
theorem Holds.exists_schedule (h : Holds model options encoder runs s)
    (hfits : scheduleBlock model options runs.current ≠ .error (.fault .overflow)) :
    ∃ schedule issued n, scheduleBlock model options runs.current = .ok schedule ∧
      schedule.issued = .ok issued ∧ schedule.cycles = .ok n := by
  have hplaced := no_misplaced_of_enlist h.pending_eq
  rcases @scheduleBlock_completes model options runs.current hplaced with
    ⟨schedule, hok, _⟩ | ⟨hover, _⟩
  · obtain ⟨hissued, n, hcycles⟩ := issued_and_cycles_of_scheduleBlock henabled hok
    exact ⟨schedule, _, n, hok, hissued, hcycles⟩
  · exact absurd hover hfits

variable (haccepts : ∀ held, encoder.refusal held = none)
include haccepts

/-- A flush emits the open run as the block that it is. An empty run is left alone by the flush, and this is the
same as to schedule and emit a block of nothing. -/
theorem Holds.flush_eq (h : Holds model options encoder runs s)
    (hfits : scheduleBlock model options runs.current ≠ .error (.fault .overflow)) :
    ∃ issued journal files, issuedBlock model options runs.current = .ok issued ∧
      s.flush = (s.closing issued journal files, .ok ()) := by
  obtain ⟨schedule, issued, n, hschedule, hissued, hcycles⟩ := h.exists_schedule henabled hfits
  have hblock := issuedBlock_eq_ok hschedule hissued
  by_cases hempty : s.pending.isEmpty = true
  · -- an empty run adds nothing, and there is nothing to forget
    have hcurrent := h.isEmpty_iff.mp hempty
    refine ⟨issued, s.journal, s.files, hblock, ?_⟩
    rw [hcurrent] at hblock
    have htracker : s.tracker = .start s.options.latencies := by
      rw [h.tracker_eq_recorded, hcurrent, h.options_eq]
      rfl
    have hpending : s.pending = #[] := Array.isEmpty_iff.mp hempty
    unfold Session.flush Session.closing
    rw [if_pos hempty, if_pos hempty, issuedBlock_nil henabled hblock, List.append_nil,
      ← htracker, ← hpending]
  · have hencoder : ∀ held, s.encoder.refusal held = none := by
      rw [h.refusal_eq]
      exact haccepts
    obtain ⟨journal, files, hdeliver⟩ := deliver_eq_ok
      (s := { s with
        tracker := .start s.options.latencies, pending := #[], blocks := s.blocks + 1, nextSlot := 0 })
      hencoder hissued hcycles (toString s.blocks)
    refine ⟨issued, journal, files, hblock, ?_⟩
    unfold Session.flush Session.closing
    rw [if_neg hempty, if_neg hempty, h.ofTracker_eq henabled, hschedule]
    exact hdeliver

theorem Holds.flush (h : Holds model options encoder runs s)
    (hfits : scheduleBlock model options runs.current ≠ .error (.fault .overflow)) :
    Holds model options encoder runs.close s.flush.1 ∧ s.flush.2 = .ok () := by
  obtain ⟨issued, journal, files, hissued, hflush⟩ := h.flush_eq henabled haccepts hfits
  rw [hflush]
  exact ⟨h.closing hissued journal files, rfl⟩

/-- An append extends the open run and answers with the slot, or is refused. If it is a delimiter, the run that
has to fit is the extended one. -/
theorem Holds.append (h : Holds model options encoder runs s) (hopen : runs.Open)
    (inst : Instruction) (hfits : (runs.take model (.append inst)).Fits model options) :
    Holds model options encoder (runs.take model (.append inst)) (s.append inst).1 ∧
      (s.append inst).2.map some = runs.answer model (.append inst) := by
  rw [Runs.take_append] at hfits ⊢
  rw [Runs.answer_append]
  by_cases hmodel : model inst.mnemonic inst.shape = none
  · rw [if_pos hmodel, if_pos hmodel, append_of_unmodeled (h.model_eq ▸ hmodel)]
    exact ⟨h.log _, rfl⟩
  · obtain ⟨entry, hentry⟩ := MachineModel.entryOf_of_modeled hmodel
    obtain ⟨s', hholds, henqueue⟩ := h.enqueue_eq hopen hentry
    have hen : s.options.enabled = true := h.options_eq ▸ henabled
    rw [if_neg hmodel] at hfits
    rw [if_neg hmodel, if_neg hmodel, append_of_modeled hen (h.model_eq ▸ hentry), henqueue]
    by_cases hdelim : inst.isDelimiter = true
    · -- the delimiter is the end of the run that it closes
      rw [if_pos hdelim] at hfits
      rw [if_pos hdelim, if_pos hdelim]
      obtain ⟨hclosed, hok⟩ := hholds.flush henabled haccepts
        (hfits _ (List.mem_append_right _ List.mem_cons_self))
      rw [hok]
      exact ⟨hclosed, rfl⟩
    · rw [if_neg hdelim, if_neg hdelim]
      exact ⟨hholds, rfl⟩

/-- **One call**: the session follows the runs and gives the answer that they say. One case for each call. -/
theorem Holds.perform (h : Holds model options encoder runs s) (hopen : runs.Open) (call : Call)
    (hfits : (runs.take model call).Fits model options) :
    Holds model options encoder (runs.take model call) (s.perform call).1 ∧
      (s.perform call).2 = runs.answer model call := by
  cases call with
  | append inst => exact h.append henabled haccepts hopen inst hfits
  | flush =>
    obtain ⟨hclosed, hok⟩ := h.flush henabled haccepts
      (hfits _ (List.mem_append_right _ List.mem_cons_self))
    refine ⟨hclosed, ?_⟩
    show s.flush.2.map _ = _
    rw [hok]
    rfl
  | discard => exact ⟨h.discard, rfl⟩

/-- **Any calls**, by induction from the last one. -/
theorem holds_after (calls : List Call) (hfits : (Runs.ofCalls model calls).Fits model options) :
    Holds model options encoder (Runs.ofCalls model calls)
      ((start model encoder options).after calls) := by
  induction calls using List.reverseRecOn with
  | nil => exact holds_start model options encoder
  | append_singleton calls call ih =>
    rw [Runs.ofCalls_concat] at hfits ⊢
    rw [after_concat]
    exact ((ih hfits.of_take).perform henabled haccepts (Runs.open_ofCalls model calls) call hfits).1

end Holds

end Session

/-- **A session schedules every run as a block of its own.** After any calls, to an encoder that takes
everything and without overflow, what has been emitted is the concatenation of the closed runs, each as
it is scheduled alone, and the records and the tracker, with its graph, are those of the open run alone. The
next call is answered accordingly, and one that appends an instruction without a model entry changes nothing
but the journal. -/
theorem session_refines_scheduleBlock {model : MachineModel} {options : Options} {encoder : Encoder}
    {calls : List Call} (henabled : options.enabled = true)
    (haccepts : ∀ held, encoder.refusal held = none)
    (hfits : (Runs.ofCalls model calls).Fits model options) :
    let runs := Runs.ofCalls model calls
    let s := (Session.start model encoder options).after calls
    s.Holds model options encoder runs ∧
      (∀ call, (runs.take model call).Fits model options →
        (s.perform call).2 = runs.answer model call) ∧
      ∀ inst, model inst.mnemonic inst.shape = none →
        (s.append inst).1 = s.log [unmodeledMessage inst] := by
  intro runs s
  have hholds := Session.holds_after henabled haccepts calls hfits
  refine ⟨hholds, ?_, ?_⟩
  · intro call hcall
    exact (hholds.perform henabled haccepts (Runs.open_ofCalls model calls) call hcall).2
  · intro inst hinst
    rw [Session.append_of_unmodeled (hholds.model_eq ▸ hinst)]

/-- A load is dropped, an addition of nothing is refused, a return closes a run, a flush closes an empty one
and another flush a run of two instructions; one is left open. -/
def mixedCalls : List Call :=
  [.append { mnemonic := .mov, operands := .memToReg (.unknown .esi 0) .eax },
   .discard,
   .append { mnemonic := .add, operands := .immToReg 1 .eax },
   .append { mnemonic := .add },
   .append { mnemonic := .mov, operands := .immToReg 1 .edx },
   .append { mnemonic := .ret },
   .flush,
   .append { mnemonic := .mov, operands := .memToReg (.unknown .esi 0) .ecx },
   .append { mnemonic := .mov, operands := .immToReg 2 .edi },
   .flush,
   .append { mnemonic := .add, operands := .immToReg 1 .ecx }]

/-- Two of the three closed runs count as blocks, and the next flush finds only the last instruction. -/
theorem session_refines_scheduleBlock_on_mixedCalls :
    let runs := Runs.ofCalls Atom.model mixedCalls
    let s := (Session.start Atom.model .unbounded {}).after mixedCalls
    runs.closed.map List.length = [3, 0, 2] ∧ runs.Fits Atom.model {} ∧
      s.Holds Atom.model {} .unbounded runs ∧ s.blocks = 2 ∧ s.pending.size = 1 ∧
      (runs.take Atom.model .flush).Fits Atom.model {} ∧ (s.perform .flush).2 = .ok none ∧
      Atom.model .add .none = none ∧
      (s.append { mnemonic := .add }).1 = s.log [unmodeledMessage { mnemonic := .add }] := by
  intro runs s
  have hfits : runs.Fits Atom.model {} := by decide +kernel
  have hnext : (runs.take Atom.model .flush).Fits Atom.model {} := by decide +kernel
  have haccepts : ∀ held, Encoder.unbounded.refusal held = none := fun _ => rfl
  obtain ⟨hholds, hanswer, hrefused⟩ := session_refines_scheduleBlock rfl haccepts hfits
  refine ⟨by decide +kernel, hfits, hholds, ?_, ?_, hnext, hanswer .flush hnext, rfl, hrefused _ rfl⟩
  · rw [hholds.blocks_eq]
    decide +kernel
  · rw [← Array.length_toList, length_of_enlist hholds.pending_eq]
    decide +kernel

end DualIssue
