import DualIssue.CommandLine.Run
import DualIssue.Proofs.ListingText
import DualIssue.Proofs.Streaming
import Mathlib.Data.List.Forall2

/-!
# The blocks of a listing

A listing is cut into blocks where delimiters stand in the stream of emitted records. These are the blocks of
the program, because every block is emitted whole before the next one, with its delimiter last.

* **`Cut`**: a list divided after every element of a kind.
* **`feed_emits`**: what is emitted for a program is its runs, each scheduled as a block of its own, also when
  reordering is switched off.
* **`Lists`**: what a listed block says about the instructions that it stands for.
* **`listing_shows_blocks`**: the listing of a program shows the program's own blocks.
-/

namespace DualIssue

open DualIssue.CommandLine

/-! ## Cutting lists

`Cut` says what it is to divide a list after every delimiter, without saying how. Pieces that each end with
their only delimiter, and a rest that has none, are such a division of what they make together. Splitting
records is a function that finds it, so that a list has one division only. -/

/-- The list is divided after every element of a kind, and only there. -/
inductive Cut {α : Type} (ends : α → Bool) : List α → List (List α) → Prop where
  | nil : Cut ends [] []
  | last {body : List α} (hne : body ≠ []) (hbody : ∀ a ∈ body, ends a = false) : Cut ends body [body]
  | cons {body rest : List α} {a : α} {pieces : List (List α)} (hbody : ∀ a ∈ body, ends a = false)
      (ha : ends a = true) (hrest : Cut ends rest pieces) :
      Cut ends (body ++ a :: rest) ((body ++ [a]) :: pieces)

/-- The list has one element of the kind, at its end. -/
def Ended {α : Type} (ends : α → Bool) (piece : List α) : Prop :=
  ∃ body a, piece = body ++ [a] ∧ (∀ b ∈ body, ends b = false) ∧ ends a = true

/-- A rest without elements of the kind is a piece unless it is empty. -/
def lastPiece {α : Type} (rest : List α) : List (List α) := if rest.isEmpty then [] else [rest]

/-- Pieces that end with a delimiter and a rest without one are cut apart again. Induction on the pieces. -/
theorem cut_flatten_append {α : Type} {ends : α → Bool} {pieces : List (List α)} {rest : List α}
    (hpieces : ∀ piece ∈ pieces, Ended ends piece) (hrest : ∀ a ∈ rest, ends a = false) :
    Cut ends (pieces.flatten ++ rest) (pieces ++ lastPiece rest) := by
  induction pieces with
  | nil =>
    cases rest with
    | nil => exact .nil
    | cons a rest => exact .last (List.cons_ne_nil a rest) hrest
  | cons piece pieces ih =>
    obtain ⟨body, a, rfl, hbody, ha⟩ := hpieces piece List.mem_cons_self
    have htail := ih fun other hother => hpieces other (List.mem_cons_of_mem _ hother)
    simpa using Cut.cons hbody ha htail

theorem splitBlocks_of_body {body : List Record} (hne : body ≠ [])
    (hbody : ∀ r ∈ body, r.inst.isDelimiter = false) : splitBlocks body = [body] := by
  induction body with
  | nil => exact absurd rfl hne
  | cons r body ih =>
    have hr := hbody r List.mem_cons_self
    cases body with
    | nil => simp [splitBlocks, hr]
    | cons r' body =>
      have htail := ih (List.cons_ne_nil r' body) fun q hq => hbody q (List.mem_cons_of_mem _ hq)
      rw [splitBlocks, htail]
      simp [hr]

/-- The first delimiter ends the first block, and what follows is split by itself. Induction on the records
before it. -/
theorem splitBlocks_append_cons {body rest : List Record} {d : Record}
    (hbody : ∀ r ∈ body, r.inst.isDelimiter = false) (hd : d.inst.isDelimiter = true) :
    splitBlocks (body ++ d :: rest) = (body ++ [d]) :: splitBlocks rest := by
  induction body with
  | nil => simp [splitBlocks, hd]
  | cons r body ih =>
    have htail := ih fun q hq => hbody q (List.mem_cons_of_mem _ hq)
    rw [List.cons_append, splitBlocks, htail]
    simp [hbody r List.mem_cons_self]

/-- **Splitting finds every cut.** Induction on the cut, whose two ways to have a first piece are the two lemmas
above. -/
theorem splitBlocks_eq_of_cut {records : List Record} {blocks : List (List Record)}
    (h : Cut (·.inst.isDelimiter) records blocks) : splitBlocks records = blocks := by
  induction h with
  | nil => rfl
  | last hne hbody => exact splitBlocks_of_body hne hbody
  | cons hbody hd _ ih => rw [splitBlocks_append_cons hbody hd, ih]

/-! ## The runs of a program

`Runs` holds the instructions since the last delimiter and the runs that delimiters have closed. Taken together
they are the program, and the closed ones are its pieces. -/

namespace Runs

/-- The runs after the instructions of a program. -/
def appended (model : MachineModel) (runs : Runs) (program : List Instruction) : Runs :=
  program.foldl (fun runs inst => runs.take model (.append inst)) runs

/-- The runs hold the program, each closed one up to its delimiter. -/
structure Divides (runs : Runs) (program : List Instruction) : Prop where
  flatten_eq : runs.closed.flatten ++ runs.current = program
  ended : ∀ run ∈ runs.closed, Ended Instruction.isDelimiter run
  isOpen : runs.Open

/-- **The step.** A further instruction goes to the end of the open run, and a delimiter closes the run after
itself. -/
theorem Divides.append {model : MachineModel} {runs : Runs} {program : List Instruction}
    (h : runs.Divides program) {inst : Instruction} (hmodel : model inst.mnemonic inst.shape ≠ none) :
    (runs.take model (.append inst)).Divides (program ++ [inst]) := by
  obtain ⟨hflatten, hended, hopen⟩ := h
  have hopen' := hopen.take model (.append inst)
  rw [take_append, if_neg hmodel] at hopen' ⊢
  by_cases hdelim : inst.isDelimiter = true
  · rw [if_pos hdelim] at hopen' ⊢
    refine ⟨by simp [close, extend, ← hflatten], ?_, hopen'⟩
    intro run hrun
    rcases List.mem_append.mp hrun with hold | hnew
    · exact hended run hold
    · rw [List.mem_singleton.mp hnew]
      exact ⟨runs.current, inst, rfl, fun other hother => by simpa using hopen other hother, hdelim⟩
  · rw [if_neg hdelim] at hopen' ⊢
    exact ⟨by simp [extend, ← hflatten], hended, hopen'⟩

/-- The runs of a program divide it. Induction on the program from its end, one instruction after the other. -/
theorem divides_appended {model : MachineModel} {program : List Instruction}
    (hmodeled : ∀ inst ∈ program, model inst.mnemonic inst.shape ≠ none) :
    (({} : Runs).appended model program).Divides program := by
  induction program using List.reverseRecOn with
  | nil => exact ⟨rfl, by simp [appended], by simp [appended, Open]⟩
  | append_singleton program inst ih =>
    have hprogram := ih fun other hother => hmodeled other (List.mem_append_left _ hother)
    rw [appended, List.foldl_append]
    exact hprogram.append (hmodeled inst (List.mem_append_right _ List.mem_cons_self))

end Runs

/-! ## Lists of results

What it means for a computation to succeed on all elements of a list. -/

theorem forall₂_of_mapM_eq_ok {ε α β : Type} {f : α → Except ε β} {l : List α} {l' : List β}
    (h : l.mapM f = .ok l') : List.Forall₂ (fun a b => f a = .ok b) l l' := by
  induction l generalizing l' with
  | nil =>
    cases h
    exact .nil
  | cons a l ih =>
    rw [List.mapM_cons] at h
    obtain ⟨b, hb, h⟩ := Except.bind_eq_ok_iff.mp h
    obtain ⟨bs, hbs, h⟩ := Except.bind_eq_ok_iff.mp h
    cases h
    exact .cons hb (ih hbs)

theorem exists_of_mapM_concat_eq_ok {ε α β : Type} {f : α → Except ε β} {l : List α} {a : α}
    {l' : List β} (h : (l ++ [a]).mapM f = .ok l') :
    ∃ front b, l.mapM f = .ok front ∧ f a = .ok b ∧ l' = front ++ [b] := by
  rw [List.mapM_append, List.mapM_cons] at h
  obtain ⟨front, hfront, h⟩ := Except.bind_eq_ok_iff.mp h
  obtain ⟨back, hback, h⟩ := Except.bind_eq_ok_iff.mp h
  obtain ⟨b, hb, hback⟩ := Except.bind_eq_ok_iff.mp hback
  cases hback
  cases h
  exact ⟨front, b, hfront, hb, rfl⟩

theorem exists_eq_ok_of_mapM_eq_ok {ε α β : Type} {f : α → Except ε β} {l : List α} {l' : List β}
    (h : l.mapM f = .ok l') {a : α} (ha : a ∈ l) : ∃ b, f a = .ok b := by
  have hall := forall₂_of_mapM_eq_ok h
  clear h
  induction hall with
  | nil => cases ha
  | cons hb _ ih =>
    rcases List.mem_cons.mp ha with rfl | ha
    · exact ⟨_, hb⟩
    · exact ih ha

theorem filterMap_range_getElem? {α : Type} (l : List α) :
    (List.range l.length).filterMap (l[·]?) = l := by
  induction l with
  | nil => rfl
  | cons a l ih => simpa [List.range_succ_eq_map, List.filterMap_map, Function.comp_def] using ih

/-! ## Programs without reordering

Without reordering nothing is held back: each instruction is emitted when it comes. `Passes` compares this with
the runs, as `Holds` does for sessions with reordering. What has been emitted is the closed runs as blocks of
their own, which are listed and not scheduled, and the records of the open run. -/

/-- A block that is not reordered is only listed. -/
theorem scheduleBlock_of_disabled {model : MachineModel} {options : Options} {block : List Instruction}
    {records : List Record} (hdisabled : options.enabled = false)
    (h : enlist model 0 block = .ok records) :
    scheduleBlock model options block = .ok (.unscheduled records.toArray) := by
  unfold scheduleBlock
  rw [h]
  show (if options.enabled = true then _ else _) = _
  rw [hdisabled]
  rfl

/-- Its records issue as they are listed: the order is that of the slots, which are the positions. -/
theorem issued_unscheduled {model : MachineModel} {block : List Instruction} {records : List Record}
    (h : enlist model 0 block = .ok records) :
    (BlockSchedule.unscheduled records.toArray).issued = .ok records := by
  have hslots : (BlockSchedule.unscheduled records.toArray).order = List.range records.length := by
    show records.map (·.slot) = _
    rw [(enlist_eq_ok h).2.1, length_of_enlist h, List.range_eq_range']
  rw [BlockSchedule.issued_eq_ok]
  · rw [hslots]
    simpa [BlockSchedule.unscheduled] using filterMap_range_getElem? records
  · intro slot hslot
    rw [hslots] at hslot
    simpa [BlockSchedule.unscheduled] using hslot

namespace Session

/-- A session without reordering is where the runs say: all their instructions have been emitted, each in its
place within its run. -/
structure Passes (model : MachineModel) (options : Options) (encoder : Encoder) (runs : Runs)
    (s : Session) : Prop where
  model_eq : s.model = model
  options_eq : s.options = options
  refusal_eq : s.encoder.refusal = encoder.refusal
  pending_eq : s.pending = #[]
  nextSlot_eq : s.nextSlot = runs.current.length
  emitted_eq : ∃ blocks records, runs.closed.mapM (issuedBlock model options) = .ok blocks ∧
    enlist model 0 runs.current = .ok records ∧
    s.encoder.emitted = encoder.emitted ++ blocks.flatten ++ records

section Feed

variable {model : MachineModel} {options : Options} {encoder : Encoder} {runs : Runs} {s : Session}

theorem passes_start (model : MachineModel) (options : Options) (encoder : Encoder) :
    Passes model options encoder {} (start model encoder options) where
  model_eq := rfl
  options_eq := rfl
  refusal_eq := rfl
  pending_eq := rfl
  nextSlot_eq := rfl
  emitted_eq := ⟨[], [], rfl, rfl, by simp [start]⟩

variable (hdisabled : options.enabled = false) (haccepts : ∀ held, encoder.refusal held = none)

include hdisabled

/-- Closing a run turns its records into a block. Nothing is emitted for that, so only the next slot changes. -/
theorem Passes.close (h : Passes model options encoder runs s) :
    Passes model options encoder runs.close { s with nextSlot := 0 } := by
  obtain ⟨blocks, records, hblocks, hrecords, hemitted⟩ := h.emitted_eq
  have hissued : issuedBlock model options runs.current = .ok records :=
    issuedBlock_eq_ok (scheduleBlock_of_disabled hdisabled hrecords) (issued_unscheduled hrecords)
  refine { h with nextSlot_eq := rfl, emitted_eq := ?_ }
  refine ⟨blocks ++ [records], [], mapM_concat_eq_ok hblocks hissued, rfl, ?_⟩
  simpa using hemitted

/-- With nothing pending a flush only closes the run. -/
theorem Passes.flush (h : Passes model options encoder runs s) :
    s.flush = ({ s with nextSlot := 0 }, .ok ()) ∧
      Passes model options encoder runs.close { s with nextSlot := 0 } := by
  refine ⟨?_, h.close hdisabled⟩
  unfold Session.flush
  rw [h.pending_eq]
  rfl

omit hdisabled in
include haccepts in
/-- The record of an instruction is emitted at once, with the next slot of its run. -/
theorem Passes.passThrough_eq (h : Passes model options encoder runs s) (inst : Instruction)
    (entry : MachineEntry) :
    s.passThrough inst entry =
      ({ s with
          nextSlot := if inst.isDelimiter then 0 else runs.current.length + 1
          encoder :=
            { s.encoder with
              emitted := s.encoder.emitted ++ [.ofEntry runs.current.length inst entry] } },
        .ok runs.current.length) := by
  unfold passThrough Encoder.emit
  simp only [h.refusal_eq, haccepts, h.nextSlot_eq]

include haccepts in
/-- **The step.** The model has an entry for the instruction and the encoder accepts its record, so nothing can
fail. A delimiter closes the run, and the slots start again. -/
theorem Passes.append (h : Passes model options encoder runs s) (hopen : runs.Open)
    {inst : Instruction} (hmodel : model inst.mnemonic inst.shape ≠ none) :
    ∃ s', s.append inst = (s', .ok runs.current.length) ∧
      Passes model options encoder (runs.take model (.append inst)) s' := by
  obtain ⟨entry, hentry⟩ := MachineModel.entryOf_of_modeled hmodel
  have happend : s.append inst = s.passThrough inst entry := by
    unfold Session.append
    rw [h.model_eq, hentry, h.options_eq]
    simp [hdisabled]
  -- the record goes to the end of the open run, which a delimiter then closes
  have hextend : ∀ nextSlot, nextSlot = runs.current.length + 1 →
      Passes model options encoder (runs.extend inst)
        { s with
          nextSlot
          encoder :=
            { s.encoder with
              emitted := s.encoder.emitted ++ [.ofEntry runs.current.length inst entry] } } := by
    intro nextSlot hnext
    obtain ⟨blocks, records, hblocks, hrecords, hemitted⟩ := h.emitted_eq
    refine { h with nextSlot_eq := by simp [hnext, Runs.extend], emitted_eq := ?_ }
    refine ⟨blocks, _, hblocks, enlist_concat hrecords hopen hentry, ?_⟩
    simp [hemitted]
  refine ⟨_, happend.trans (h.passThrough_eq haccepts inst entry), ?_⟩
  rw [Runs.take_append, if_neg hmodel]
  split
  · exact (hextend _ rfl).close hdisabled
  · exact hextend _ rfl

end Feed

/-! ## Programs with reordering

With reordering a run is scheduled when it is closed, and what `Holds` says about the session goes on as long as
the schedule fits. The one way to fail is an overflow of the cycle count, which the two last lemmas set apart. -/

section Holds

variable {model : MachineModel} {options : Options} {encoder : Encoder} {runs : Runs} {s : Session}

/-- What has been emitted could be scheduled. -/
theorem Holds.fits (h : Holds model options encoder runs s) : runs.Fits model options := by
  obtain ⟨blocks, hblocks, _⟩ := h.emitted_eq
  intro run hrun hover
  obtain ⟨block, hissued⟩ := exists_eq_ok_of_mapM_eq_ok hblocks hrun
  obtain ⟨schedule, hschedule, _⟩ := Except.bind_eq_ok_iff.mp hissued
  cases hover.symm.trans hschedule

variable (henabled : options.enabled = true)
include henabled

/-- A run that does not fit is refused by the flush. It is not empty, since an empty block always fits. -/
theorem Holds.flush_of_overflow (h : Holds model options encoder runs s)
    (hover : scheduleBlock model options runs.current = .error (.fault .overflow)) :
    s.flush.2 = .error (.fault .overflow) := by
  have hpending : ¬ s.pending.isEmpty = true := by
    intro hempty
    have hplaced := no_misplaced_of_enlist h.pending_eq
    rw [h.isEmpty_iff.mp hempty] at hover hplaced
    rcases @scheduleBlock_completes model options [] hplaced with ⟨_, hok, _⟩ | ⟨_, _, hlt⟩
    · cases hover.symm.trans hok
    · exact absurd hlt (Nat.not_lt_zero maxCycle)
  unfold Session.flush
  rw [if_neg hpending, h.ofTracker_eq henabled, hover]

variable (haccepts : ∀ held, encoder.refusal held = none)
include haccepts

/-- **The step**, or an overflow. The runs that were closed before all fit (`Holds.fits`), so only a delimiter
can bring one that does not. -/
theorem Holds.append_or_overflow (h : Holds model options encoder runs s) (hopen : runs.Open)
    {inst : Instruction} (hmodel : model inst.mnemonic inst.shape ≠ none) :
    (∃ s' slot, s.append inst = (s', .ok slot) ∧
      Holds model options encoder (runs.take model (.append inst)) s') ∨
    (s.append inst).2 = .error (.fault .overflow) := by
  by_cases hfits : (runs.take model (.append inst)).Fits model options
  · obtain ⟨hholds, hanswer⟩ := h.append henabled haccepts hopen inst hfits
    rw [Runs.answer_append, if_neg hmodel] at hanswer
    obtain ⟨slot, hslot, _⟩ := Except.map_eq_ok_iff.mp hanswer
    exact Or.inl ⟨_, slot, Prod.ext rfl hslot, hholds⟩
  · -- the run that the instruction closes is the one that does not fit
    rw [Runs.take_append, if_neg hmodel] at hfits
    split at hfits
    · rename_i hdelim
      obtain ⟨entry, hentry⟩ := MachineModel.entryOf_of_modeled hmodel
      obtain ⟨s', hholds, henqueue⟩ := h.enqueue_eq hopen hentry
      have hover : scheduleBlock model options (runs.extend inst).current = .error (.fault .overflow) := by
        refine Classical.byContradiction fun hnot => hfits ?_
        intro run hrun
        rcases List.mem_append.mp hrun with hold | hnew
        · exact h.fits run hold
        · rw [List.mem_singleton.mp hnew]
          exact hnot
      have hen : s.options.enabled = true := h.options_eq ▸ henabled
      right
      rw [append_of_modeled hen (h.model_eq ▸ hentry), henqueue, if_pos hdelim,
        hholds.flush_of_overflow henabled hover]
      rfl
    · exact absurd h.fits hfits

theorem Holds.flush_or_overflow (h : Holds model options encoder runs s) :
    (∃ s', s.flush = (s', .ok ()) ∧ Holds model options encoder runs.close s') ∨
      s.flush.2 = .error (.fault .overflow) := by
  by_cases hover : scheduleBlock model options runs.current = .error (.fault .overflow)
  · exact Or.inr (h.flush_of_overflow henabled hover)
  · obtain ⟨hholds, hok⟩ := h.flush henabled haccepts hover
    exact Or.inl ⟨_, Prod.ext rfl hok, hholds⟩

end Holds

end Session

/-! ## Feeding a program

Both kinds of session take one instruction after the other and are flushed at the end. The induction is the same
for both, and so it is stated for any property that steps and flush keep. -/

theorem feed_cons_of_ok {s s' : Session} {inst : Instruction} {slot : Slot}
    (h : s.append inst = (s', .ok slot)) (rest : List Instruction) :
    feed s (inst :: rest) = feed s' rest := by
  unfold feed
  rw [Session.appendAll, h]

theorem feed_cons_of_error {s : Session} {inst : Instruction} {e : ScheduleError}
    (h : (s.append inst).2 = .error e) (rest : List Instruction) :
    (feed s (inst :: rest)).2 = .error e := by
  have hpair : s.append inst = ((s.append inst).1, .error e) := Prod.ext rfl h
  unfold feed
  rw [Session.appendAll, hpair]

/-- **How feeding a program ends**: with what every instruction and the last flush keep, or with an overflow.
Induction on the program, for any session and runs to start from. -/
theorem feed_induction {model : MachineModel} {P : Runs → Session → Prop}
    (happend : ∀ {runs s inst}, P runs s → runs.Open → model inst.mnemonic inst.shape ≠ none →
      (∃ s' slot, s.append inst = (s', .ok slot) ∧ P (runs.take model (.append inst)) s') ∨
        (s.append inst).2 = .error (.fault .overflow))
    (hflush : ∀ {runs s}, P runs s →
      (∃ s', s.flush = (s', .ok ()) ∧ P runs.close s') ∨ s.flush.2 = .error (.fault .overflow))
    {runs : Runs} {s : Session} {program : List Instruction} (h : P runs s) (hopen : runs.Open)
    (hmodeled : ∀ inst ∈ program, model inst.mnemonic inst.shape ≠ none) :
    (∃ s', feed s program = (s', .ok ()) ∧ P (runs.appended model program).close s') ∨
      (feed s program).2 = .error (.fault .overflow) := by
  induction program generalizing runs s with
  | nil => exact hflush h
  | cons inst rest ih =>
    rcases happend h hopen (hmodeled inst List.mem_cons_self) with ⟨s', slot, hok, hnext⟩ | hover
    · rw [feed_cons_of_ok hok]
      exact ih hnext (hopen.take model (.append inst)) fun other hother =>
        hmodeled other (List.mem_cons_of_mem _ hother)
    · exact Or.inr (feed_cons_of_error hover rest)

/-- **What is emitted for a program**: its runs, each scheduled as a block of its own. This is `feed_induction`
for `Holds` or for `Passes`, whichever the options ask for; both say what has been emitted. -/
theorem feed_emits {model : MachineModel} {options : Options} {encoder : Encoder}
    {program : List Instruction} (haccepts : ∀ held, encoder.refusal held = none)
    (hmodeled : ∀ inst ∈ program, model inst.mnemonic inst.shape ≠ none) :
    (∃ s blocks, feed (.start model encoder options) program = (s, .ok ()) ∧
      (({} : Runs).appended model program).close.closed.mapM (issuedBlock model options) = .ok blocks ∧
      s.encoder.emitted = encoder.emitted ++ blocks.flatten) ∨
    (feed (.start model encoder options) program).2 = .error (.fault .overflow) := by
  have hopen : ({} : Runs).Open := fun _ hmem => nomatch hmem
  by_cases henabled : options.enabled = true
  · refine (feed_induction
      (fun hholds hopen hmodel => hholds.append_or_overflow henabled haccepts hopen hmodel)
      (fun hholds => hholds.flush_or_overflow henabled haccepts)
      (Session.holds_start model options encoder) hopen hmodeled).imp_left ?_
    rintro ⟨s, hfeed, hholds⟩
    obtain ⟨blocks, hblocks, hemitted⟩ := hholds.emitted_eq
    exact ⟨s, blocks, hfeed, hblocks, hemitted⟩
  · have hdisabled : options.enabled = false := by simpa using henabled
    refine (feed_induction
      (fun hpasses hopen hmodel =>
        let ⟨s', happend, hnext⟩ := hpasses.append hdisabled haccepts hopen hmodel
        Or.inl ⟨s', _, happend, hnext⟩)
      (fun hpasses => Or.inl ⟨_, hpasses.flush hdisabled⟩)
      (Session.passes_start model options encoder) hopen hmodeled).imp_left ?_
    rintro ⟨s, hfeed, hpasses⟩
    obtain ⟨blocks, records, hblocks, hrecords, hemitted⟩ := hpasses.emitted_eq
    -- after the flush the open run is empty
    cases hrecords
    exact ⟨s, blocks, hfeed, hblocks, by simpa using hemitted⟩

/-! ## Listed blocks

The last part is about a single block: what is emitted for a segment of the program lists this segment, with and
without reordering. Blocks that list segments end where the segments do, so they are found again in the stream
of all records. -/

/-- The place of a record in its block: the instruction and its slot. -/
def Record.place (r : Record) : Instruction × Slot := (r.inst, r.slot)

/-- A block as it is listed shows the instructions of a segment: each of them once, in the slot that is its
position, and a delimiter last. Without reordering they stand in program order and have no times. -/
structure Lists (reorder : Bool) (segment : List Instruction) (block : List Record) : Prop where
  places_perm : (block.map Record.place).Perm segment.zipIdx
  delimiter_last : ∀ r ∈ block.dropLast, r.inst.isDelimiter = false
  in_order : reorder = false →
    block.map Record.place = segment.zipIdx ∧ ∀ r ∈ block, r.issueTime = none

theorem map_place_of_enlist {model : MachineModel} {segment : List Instruction} {records : List Record}
    (h : enlist model 0 segment = .ok records) : records.map Record.place = segment.zipIdx := by
  obtain ⟨hinst, hslot, _⟩ := enlist_eq_ok h
  rw [List.zipIdx_eq_zip_range', ← hslot, ← hinst, List.zip_map']
  rfl

/-- Listing gives no times. Induction on the segment. -/
theorem issueTime_of_enlist {model : MachineModel} {slot : Slot} {segment : List Instruction}
    {records : List Record} (h : enlist model slot segment = .ok records) :
    ∀ r ∈ records, r.issueTime = none := by
  induction segment generalizing slot records with
  | nil =>
    cases h
    exact fun _ hr => nomatch hr
  | cons inst rest ih =>
    obtain ⟨entry, _, h⟩ := Except.bind_eq_ok_iff.mp h
    split at h
    · cases h
    · obtain ⟨tail, htail, h⟩ := Except.bind_eq_ok_iff.mp h
      cases h
      exact List.forall_mem_cons.mpr ⟨rfl, ih htail⟩

section Schedule

variable {model : MachineModel} {options : Options} {segment : List Instruction} {s : BlockSchedule}
  (h : scheduleBlock model options segment = .ok s)
include h

theorem exists_enlist_of_scheduleBlock : ∃ records, enlist model 0 segment = .ok records := by
  obtain ⟨records, hrecords, _⟩ := Except.bind_eq_ok_iff.mp h
  exact ⟨records, hrecords⟩

/-- A schedule has every slot once, and each record in its place. With reordering the order is that of a
`Scheduled` block, and neither paths nor times change the place of a record. -/
theorem places_of_scheduleBlock :
    s.order.Perm (List.range segment.length) ∧
      ∀ i : Nat, s.records[i]?.map Record.place = segment.zipIdx[i]? := by
  obtain ⟨records, hrecords⟩ := exists_enlist_of_scheduleBlock h
  have hplaces : ∀ i : Nat, records.toArray[i]?.map Record.place = segment.zipIdx[i]? := by
    intro i
    rw [List.getElem?_toArray, ← List.getElem?_map, map_place_of_enlist hrecords]
  by_cases henabled : options.enabled = true
  · refine ⟨(scheduled_of_scheduleBlock henabled h).order_perm, fun i => ?_⟩
    -- paths and times are written into the records, neither of which is part of a place
    obtain ⟨records', paths, hrecords', hcloses, _, hlist⟩ := scheduleBlock_eq_ok henabled h
    cases hrecords.symm.trans hrecords'
    have hsize := size_eq_of_enlist hrecords hcloses
    rw [← BlockSchedule.size_withPaths _ paths] at hsize
    have hpos := BlockSchedule.positioned_withPaths (positioned_of_enlist hrecords) paths
    obtain ⟨_, _, hsame, _⟩ := sound_of_listSchedule hcloses.inverted hsize hpos hlist
    rw [hsame.map_eq Record.place (fun _ => rfl),
      BlockSchedule.map_getElem?_withPaths Record.place (fun _ _ => rfl), hplaces]
  · have hdisabled : options.enabled = false := by simpa using henabled
    rw [scheduleBlock_of_disabled hdisabled hrecords] at h
    cases h
    refine ⟨?_, hplaces⟩
    show (records.map (·.slot)).Perm _
    rw [(enlist_eq_ok hrecords).2.1, List.range_eq_range']

/-- So the records of a schedule can be put into the order of issue, and their places are those of the segment
in this order. -/
theorem issued_of_scheduleBlock :
    s.issued = .ok (s.order.filterMap (s.records[·]?)) ∧
      (s.order.filterMap (s.records[·]?)).map Record.place = s.order.filterMap (segment.zipIdx[·]?) := by
  obtain ⟨hperm, hplaces⟩ := places_of_scheduleBlock h
  constructor
  · refine s.issued_eq_ok fun slot hslot => ?_
    have hlt := List.mem_range.mp (hperm.mem_iff.mp hslot)
    have hplace := hplaces slot
    rw [List.getElem?_eq_getElem (by simpa using hlt)] at hplace
    obtain ⟨r, hr, _⟩ := Option.map_eq_some_iff.mp hplace
    exact (Array.getElem?_eq_some_iff.mp hr).1
  · rw [List.map_filterMap]
    exact congrArg (s.order.filterMap ·) (funext hplaces)

/-- Only the last slot of a schedule may hold a delimiter. -/
theorem isDelimiter_of_mem_dropLast {slot : Slot} (hslot : slot ∈ s.order.dropLast) {inst : Instruction}
    (hinst : segment[slot]? = some inst) : inst.isDelimiter = false := by
  obtain ⟨records, hrecords⟩ := exists_enlist_of_scheduleBlock h
  have hnodup := (places_of_scheduleBlock h).1.nodup_iff.mpr List.nodup_range
  have hplaced := no_misplaced_of_enlist hrecords
  rcases @scheduleBlock_completes model options segment hplaced with ⟨s', hok, hlast⟩ | ⟨hover, _⟩
  · cases h.symm.trans hok
    by_contra hdelim
    -- the delimiter would stand last and earlier too, but no slot stands twice
    obtain ⟨others, hothers⟩ := List.getLast?_eq_some_iff.mp (hlast slot inst hinst (by simpa using hdelim))
    rw [hothers] at hnodup hslot
    rw [List.dropLast_concat] at hslot
    exact (List.nodup_append.mp hnodup).2.2 _ hslot _ (List.mem_singleton.mpr rfl) rfl
  · cases h.symm.trans hover

end Schedule

theorem map_snd_filterMap_zipIdx {α : Type} {l : List α} {order : List Nat}
    (h : ∀ i ∈ order, i < l.length) : (order.filterMap (l.zipIdx[·]?)).map Prod.snd = order := by
  induction order with
  | nil => rfl
  | cons i order ih =>
    have hi := h i List.mem_cons_self
    simpa [hi] using ih fun j hj => h j (List.mem_cons_of_mem _ hj)

/-- **A block as it is emitted lists its segment.** Its places are those of the segment in the order of issue
(`issued_of_scheduleBlock`), which is a permutation of all of them. Its slots are the order itself, and that
is where only the last may hold a delimiter. -/
theorem lists_of_issuedBlock {model : MachineModel} {options : Options} {segment : List Instruction}
    {block : List Record} (h : issuedBlock model options segment = .ok block) :
    Lists options.enabled segment block := by
  obtain ⟨s, hs, hissued⟩ := Except.bind_eq_ok_iff.mp h
  obtain ⟨records, hrecords⟩ := exists_enlist_of_scheduleBlock hs
  obtain ⟨hperm, _⟩ := places_of_scheduleBlock hs
  obtain ⟨heq, hplaces⟩ := issued_of_scheduleBlock hs
  have hblock : block = s.order.filterMap (s.records[·]?) :=
    (Except.ok.inj ((liftFault_eq_ok_iff.mp hissued).symm.trans heq))
  rw [← hblock] at hplaces
  have hzip : (block.map Record.place).Perm segment.zipIdx := by
    rw [hplaces]
    have hall := filterMap_range_getElem? segment.zipIdx
    rw [List.length_zipIdx] at hall
    exact (hperm.filterMap _).trans (.of_eq hall)
  -- the slots of the records are the order that was followed
  have hslots : block.map (·.slot) = s.order := by
    have hsnd := congrArg (List.map Prod.snd) hplaces
    rw [List.map_map, map_snd_filterMap_zipIdx fun i hi => List.mem_range.mp (hperm.mem_iff.mp hi)] at hsnd
    exact hsnd
  refine ⟨hzip, ?_, ?_⟩
  · intro r hr
    have hinst : segment[r.slot]? = some r.inst := by
      have hmem := hzip.mem_iff.mp (List.mem_map_of_mem (List.dropLast_subset block hr))
      exact List.mem_zipIdx_iff_getElem?.mp hmem
    refine isDelimiter_of_mem_dropLast hs ?_ hinst
    rw [← hslots, ← List.map_dropLast]
    exact List.mem_map_of_mem hr
  · intro hdisabled
    rw [scheduleBlock_of_disabled hdisabled hrecords] at hs
    cases hs
    cases (Except.ok.inj ((liftFault_eq_ok_iff.mp hissued).symm.trans (issued_unscheduled hrecords)))
    exact ⟨map_place_of_enlist hrecords, issueTime_of_enlist hrecords⟩

section Lists

variable {reorder : Bool} {segment : List Instruction} {block : List Record}
  (h : Lists reorder segment block)
include h

theorem Lists.mem_segment {r : Record} (hr : r ∈ block) : r.inst ∈ segment :=
  List.fst_mem_of_mem_zipIdx (h.places_perm.mem_iff.mp (List.mem_map_of_mem hr))

theorem Lists.exists_record {inst : Instruction} (hinst : inst ∈ segment) :
    ∃ r ∈ block, r.inst = inst := by
  rw [← List.zipIdx_map_fst 0 segment] at hinst
  obtain ⟨place, hplace, rfl⟩ := List.mem_map.mp hinst
  obtain ⟨r, hr, rfl⟩ := List.mem_map.mp (h.places_perm.mem_iff.mpr hplace)
  exact ⟨r, hr, rfl⟩

/-- A block ends with its delimiter if the segment does. -/
theorem Lists.ended (hended : Ended Instruction.isDelimiter segment) :
    Ended (·.inst.isDelimiter) block := by
  obtain ⟨body, d, rfl, _, hd⟩ := hended
  obtain ⟨r, hr, rfl⟩ := h.exists_record (List.mem_append_right body List.mem_cons_self)
  have hsplit := List.dropLast_concat_getLast (List.ne_nil_of_mem hr)
  refine ⟨block.dropLast, _, hsplit.symm, h.delimiter_last, ?_⟩
  -- all records before the last are no delimiters, and some record is one
  rw [← hsplit] at hr
  rcases List.mem_append.mp hr with hearlier | hlast
  · rw [h.delimiter_last r hearlier] at hd
    cases hd
  · rw [← List.mem_singleton.mp hlast]
    exact hd

/-- A block has as many records as its segment has instructions. -/
theorem Lists.isEmpty_eq : block.isEmpty = segment.isEmpty := by
  have hlength := h.places_perm.length_eq
  rw [List.length_map, List.length_zipIdx] at hlength
  rw [Bool.eq_iff_iff, List.isEmpty_iff, List.isEmpty_iff, ← List.length_eq_zero_iff, hlength,
    List.length_eq_zero_iff]

end Lists

theorem ended_of_forall₂_lists {reorder : Bool} {segments : List (List Instruction)}
    {blocks : List (List Record)} (h : List.Forall₂ (Lists reorder) segments blocks)
    (hended : ∀ segment ∈ segments, Ended Instruction.isDelimiter segment) :
    ∀ block ∈ blocks, Ended (·.inst.isDelimiter) block := by
  induction h with
  | nil => exact fun _ hblock => nomatch hblock
  | cons hlists _ ih =>
    obtain ⟨hhead, htail⟩ := List.forall_mem_cons.mp hended
    exact List.forall_mem_cons.mpr ⟨hlists.ended hhead, ih htail⟩

/-- Blocks that list segments are found again in the stream of their records. Their records are cut where the
segments are (`cut_flatten_append`), and splitting finds this cut. The last block is there if the last segment
is not empty. -/
theorem forall₂_lists_splitBlocks {reorder : Bool} {segments : List (List Instruction)}
    {rest : List Instruction} {blocks : List (List Record)} {last : List Record}
    (h : List.Forall₂ (Lists reorder) segments blocks) (hlast : Lists reorder rest last)
    (hended : ∀ segment ∈ segments, Ended Instruction.isDelimiter segment)
    (hrest : ∀ inst ∈ rest, inst.isDelimiter = false) :
    List.Forall₂ (Lists reorder) (segments ++ lastPiece rest)
      (splitBlocks (blocks.flatten ++ last)) := by
  have hcut := cut_flatten_append (ended_of_forall₂_lists h hended) fun r hr =>
    hrest r.inst (hlast.mem_segment hr)
  rw [splitBlocks_eq_of_cut hcut]
  refine List.rel_append h ?_
  unfold lastPiece
  rw [hlast.isEmpty_eq]
  split
  · exact .nil
  · exact .cons hlast .nil

/-- **The listing of a program shows the program's own blocks.** Unless a cycle count is too large, the command
succeeds on a program that the Atom model covers, whatever it says about reordering and latencies, and returns a text.
Read line by line, the text shows one block of rows for each block into which the emitted records are split
(`listedBlocks_listing`). Cut after its delimiters, the program has as many segments, and each block of records shows
its segment: `feed_emits` says what is emitted for each segment, `lists_of_issuedBlock` that this lists the segment, and
`forall₂_lists_splitBlocks` that splitting finds the blocks again. -/
theorem listing_shows_blocks (c : Command) {program : List Instruction}
    (hmodeled : ∀ inst ∈ program, Atom.model inst.mnemonic inst.shape ≠ none)
    (hfits : (feed (.start Atom.model .unbounded c.options) program).2 ≠ .error (.fault .overflow)) :
    ∃ s segments, feed (.start Atom.model .unbounded c.options) program = (s, .ok ()) ∧
      (c.schedule program).result = .ok (listing c.stats s.encoder.emitted) ∧
      listedBlocks (listing c.stats s.encoder.emitted) = (splitBlocks s.encoder.emitted).map rowsOf ∧
      Cut Instruction.isDelimiter program segments ∧
      List.Forall₂ (Lists (!c.noSchedule)) segments (splitBlocks s.encoder.emitted) := by
  obtain ⟨s, blocks, hfeed, hblocks, hemitted⟩ :=
    (feed_emits (fun _ => rfl) hmodeled).resolve_right hfits
  obtain ⟨hflatten, hended, hopen⟩ := Runs.divides_appended hmodeled
  generalize ({} : Runs).appended Atom.model program = runs at hblocks hflatten hended hopen
  have hopen : ∀ inst ∈ runs.current, inst.isDelimiter = false := fun inst hinst => by
    simpa using hopen inst hinst
  refine ⟨s, runs.closed ++ lastPiece runs.current, hfeed, ?_, listedBlocks_listing _ _, ?_, ?_⟩
  · unfold Command.schedule
    rw [hfeed]
  · rw [← hflatten]
    exact cut_flatten_append hended hopen
  · -- the last run is closed by the flush, and its block is the last one, or none if nothing follows a delimiter
    show List.Forall₂ (Lists c.options.enabled) _ _
    obtain ⟨closed, last, hclosed, hlast, rfl⟩ := exists_of_mapM_concat_eq_ok hblocks
    have hlists : List.Forall₂ (Lists c.options.enabled) runs.closed closed :=
      (forall₂_of_mapM_eq_ok hclosed).imp fun _ _ => lists_of_issuedBlock
    have hemitted : s.encoder.emitted = closed.flatten ++ last := by
      simpa [Encoder.unbounded] using hemitted
    rw [hemitted]
    exact forall₂_lists_splitBlocks hlists (lists_of_issuedBlock hlast) hended hopen

/-- A load of what a late store needs, a return, and two more instructions. -/
def twoBlocks : List Instruction :=
  [{ mnemonic := .mov, operands := .memToReg (.unknown .esi 0) .ecx },
   { mnemonic := .add, operands := .immToReg 1 .ecx },
   { mnemonic := .mov, operands := .immToReg 1 .edx },
   { mnemonic := .ret },
   { mnemonic := .mov, operands := .immToReg 2 .edi },
   { mnemonic := .add, operands := .immToReg 1 .eax }]

/-- With dear loads the move overtakes the addition, and the second block starts with slot zero again. The listing shows
two blocks, of four and of two rows. -/
theorem listing_shows_blocks_on_twoBlocks :
    let c : Command := { input := "block.json", stats := true, memoryLoad := some 3 }
    (∀ inst ∈ twoBlocks, Atom.model inst.mnemonic inst.shape ≠ none) ∧
      (feed (.start Atom.model .unbounded c.options) twoBlocks).2 ≠ .error (.fault .overflow) ∧
      ∃ s segments, feed (.start Atom.model .unbounded c.options) twoBlocks = (s, .ok ()) ∧
        (∃ text, (c.schedule twoBlocks).result = .ok text ∧ (listedBlocks text).map List.length = [4, 2]) ∧
        Cut Instruction.isDelimiter twoBlocks segments ∧
        List.Forall₂ (Lists true) segments (splitBlocks s.encoder.emitted) ∧
        (splitBlocks s.encoder.emitted).map (·.map (·.slot)) = [[0, 2, 1, 3], [0, 1]] := by
  intro c
  have hmodeled : ∀ inst ∈ twoBlocks, Atom.model inst.mnemonic inst.shape ≠ none := by decide
  have hfits : (feed (.start Atom.model .unbounded c.options) twoBlocks).2 ≠ .error (.fault .overflow) := by
    decide +kernel
  have hslots : (splitBlocks (feed (.start Atom.model .unbounded c.options) twoBlocks).1.encoder.emitted).map
      (·.map (·.slot)) = [[0, 2, 1, 3], [0, 1]] := by
    decide +kernel
  obtain ⟨s, segments, hfeed, hresult, hrows, hcut, hlists⟩ := listing_shows_blocks c hmodeled hfits
  rw [hfeed] at hslots
  have hlengths : (splitBlocks s.encoder.emitted).map List.length = [4, 2] := by
    simpa [Function.comp_def] using congrArg (List.map List.length) hslots
  refine ⟨hmodeled, hfits, s, segments, hfeed, ⟨_, hresult, ?_⟩, hcut, hlists, hslots⟩
  rw [hrows, List.map_map, ← hlengths]
  exact List.map_congr_left fun block _ => List.length_map recordRow

end DualIssue
