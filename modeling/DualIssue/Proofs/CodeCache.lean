import DualIssue.Proofs.Streaming

/-!
# A full code cache

An encoder with room for so many instructions refuses the next one, in the middle of a block or between two.
By then the session has already reset its block, or moved its counter, so the refusal changes an answer and
nothing else. A session on a code cache is therefore a function of the session on an encoder that takes
everything: what that one has emitted is cut off, and the rest is the same.

* **`Encoder.truncated`**, **`Session.truncated`**: the cut.
* **`Encoder.emitAll_truncated`**: emitting after the cut is the cut after emitting.
* **`Session.Cuts`**: an operation goes the same way with and without the cut, up to the answer of a call
  that emits too much. `Session.cuts_perform` says so of every call.
* **`codeCache_only_truncates`**: hence two sessions stay in step over any calls.
-/

namespace DualIssue

/-! ## Encoders

A code cache is an encoder with a capacity. It is compared with an encoder that has taken everything: the cache
holds the first so many of these instructions. As long as there is room the two go on together; once it is full,
the cache refuses and the cut absorbs whatever the other takes. -/

namespace Encoder

/-- What a code cache holds of the instructions that an encoder has taken. -/
def truncated (e : Encoder) (capacity : Nat) : Encoder :=
  { bounded capacity with emitted := e.emitted.take capacity }

/-- The encoder after it has taken some more instructions. -/
def extended (e : Encoder) (records : List Record) : Encoder :=
  { e with emitted := e.emitted ++ records }

/-- A full code cache does not change when the encoder that it is cut from takes more. -/
theorem truncated_extended_of_full {e : Encoder} {capacity : Nat} (h : capacity ≤ e.emitted.length)
    (records : List Record) : (e.extended records).truncated capacity = e.truncated capacity := by
  unfold truncated extended
  rw [List.take_append_of_le_length h]

/-- A full code cache refuses: the cut has exactly as many instructions as its capacity. -/
theorem emit_truncated_of_full {e : Encoder} {capacity : Nat} (h : capacity ≤ e.emitted.length)
    (record : Record) :
    (e.truncated capacity).emit record = .error (.codeCacheFull capacity) := by
  have hheld : (e.emitted.take capacity).length = capacity := List.length_take_of_le h
  unfold emit truncated bounded
  simp only [hheld, Nat.le_refl, if_true]

/-- A code cache with room takes the instruction, since so far nothing has been cut off. -/
theorem emit_truncated_of_room {e : Encoder} {capacity : Nat} (h : e.emitted.length < capacity)
    (record : Record) :
    (e.truncated capacity).emit record = .ok ((e.extended [record]).truncated capacity) := by
  have hwhole : e.emitted.take capacity = e.emitted := List.take_of_length_le (Nat.le_of_lt h)
  have hwhole' : (e.emitted ++ [record]).take capacity = e.emitted ++ [record] :=
    List.take_of_length_le (by rw [List.length_append]; exact h)
  unfold emit truncated extended bounded
  simp only [hwhole, hwhole', Nat.not_le.mpr h, if_false]

/-- **Emitting a list into a code cache**: it ends with what fits, and it fails if something does not. Induction
on the list. An empty list never fails, not even on a cache that is over its capacity already, which is why the
condition asks for both. -/
theorem emitAll_truncated (e : Encoder) (capacity : Nat) (records : List Record) :
    (e.truncated capacity).emitAll records =
      ((e.extended records).truncated capacity,
        if records ≠ [] ∧ capacity < e.emitted.length + records.length then
          .error (.codeCacheFull capacity)
        else .ok ()) := by
  induction records generalizing e with
  | nil => simp [emitAll, extended]
  | cons record rest ih =>
    unfold emitAll
    rcases Nat.lt_or_ge e.emitted.length capacity with hroom | hfull
    · -- the first fits, so the rest decides
      have hlength : (e.extended [record]).emitted.length = e.emitted.length + 1 := by simp [extended]
      have hextended : (e.extended [record]).extended rest = e.extended (record :: rest) := by
        simp [extended]
      -- what is left overruns exactly if the whole list does
      have hover : (rest ≠ [] ∧ capacity < e.emitted.length + 1 + rest.length) ↔
          record :: rest ≠ [] ∧ capacity < e.emitted.length + (record :: rest).length := by
        cases rest with
        | nil => simp [Nat.not_lt.mpr hroom]
        | cons => simp [Nat.add_assoc, Nat.add_comm 1]
      rw [emit_truncated_of_room hroom]
      show (((e.extended [record]).truncated capacity).emitAll rest) = _
      rw [ih, hlength, hextended]
      simp only [hover]
    · have hover : capacity < e.emitted.length + (record :: rest).length := by
        rw [List.length_cons]
        omega
      rw [emit_truncated_of_full hfull, truncated_extended_of_full hfull,
        if_pos ⟨List.cons_ne_nil _ _, hover⟩]

def TakesAll (e : Encoder) : Prop := ∀ held, e.refusal held = none

end Encoder

/-! ## Sessions

What holds of encoders is carried through the functions of a session. None of them looks at the encoder except
to emit, and all of them have brought block, tracker and counters in order before they emit. So each operation
`Cuts`: it leads to the cut session, with the answer that the overrun explains. The lemmas go through the
operations from the innermost to whole calls. -/

/-- The answer of an operation after which `total` instructions have been emitted, if they have to fit into a
code cache and `held` of them have been emitted before. An operation that emits nothing cannot overrun. -/
def answerWithin {α : Type} (capacity held total : Nat) (answer : Except ScheduleError α) :
    Except ScheduleError α :=
  if held < total ∧ capacity < total then .error (.emission (.codeCacheFull capacity)) else answer

/-- Whether there was an overrun does not depend on the value of the answer. -/
theorem answerWithin_map {α β : Type} (capacity held total : Nat) (answer : Except ScheduleError α)
    (f : α → β) :
    (answerWithin capacity held total answer).map f =
      answerWithin capacity held total (answer.map f) := by
  unfold answerWithin
  split <;> rfl

namespace Session

/-- The session with a code cache in place of its encoder. -/
def truncated (s : Session) (capacity : Nat) : Session :=
  { s with encoder := s.encoder.truncated capacity }

/-- What an operation has returned, `full`, is on a code cache `cut`: the same session, with its encoder cut
off, and the same answer unless more has been emitted than fits. -/
structure Cuts {α : Type} (full cut : Session × Except ScheduleError α) (capacity held : Nat) :
    Prop where
  takesAll : full.1.encoder.TakesAll
  session_eq : cut.1 = full.1.truncated capacity
  answer_eq : cut.2 = answerWithin capacity held full.1.encoder.emitted.length full.2

section Operations

variable {s : Session} {capacity held : Nat}

/-- An operation that only changes the value of another's answer goes along with it. -/
theorem Cuts.map {α β : Type} {full cut : Session × Except ScheduleError α}
    (h : Cuts full cut capacity held) (f : α → β) :
    Cuts (full.1, full.2.map f) (cut.1, cut.2.map f) capacity held where
  takesAll := h.takesAll
  session_eq := h.session_eq
  answer_eq := by rw [h.answer_eq, answerWithin_map]

variable (hs : s.encoder.TakesAll)

include hs

/-- An operation that leaves the encoder alone has the same answer on a code cache. -/
theorem Cuts.quiet {α : Type} {answer : Except ScheduleError α} :
    Cuts (s, answer) (s.truncated capacity, answer) capacity s.encoder.emitted.length where
  takesAll := hs
  session_eq := rfl
  answer_eq := (if_neg fun hover => Nat.lt_irrefl _ hover.1).symm

/-- Delivering a scheduled block writes its report and then emits it. Only the emission can tell the two
encoders apart, and `Encoder.emitAll_truncated` says how. -/
theorem cuts_deliver {name : String} {schedule : BlockSchedule} :
    Cuts (s.deliver name schedule) ((s.truncated capacity).deliver name schedule) capacity
      s.encoder.emitted.length := by
  unfold deliver
  -- report and order do not depend on the encoder
  cases hreport : blockReport s.options name schedule with
  | error f =>
    simp only [truncated, hreport]
    exact .quiet hs
  | ok report =>
    cases hissued : schedule.issued with
    | error f =>
      simp only [truncated, hreport]
      exact .quiet hs
    | ok issued =>
      -- the condition of the overrun is that of `answerWithin`
      simp only [log, truncated, hreport, Encoder.emitAll_of_no_refusal hs, Encoder.emitAll_truncated]
      refine ⟨hs, rfl, ?_⟩
      simp only [answerWithin, List.length_append, Nat.lt_add_right_iff_pos, List.length_pos_iff]
      split <;> rfl

/-- Flushing an empty block does nothing. Otherwise the block is closed and delivered, or it fails before
anything has been emitted. -/
theorem cuts_flush : Cuts s.flush (s.truncated capacity).flush capacity s.encoder.emitted.length := by
  unfold flush
  by_cases hempty : s.pending.isEmpty = true
  · simp only [truncated, hempty, if_true]
    apply Cuts.quiet
    exact hs
  · simp only [truncated, hempty, Bool.false_eq_true, if_false]
    -- the block has been reset before anything is emitted
    cases BlockSchedule.ofTracker s.tracker s.pending with
    | error e =>
      apply Cuts.quiet
      exact hs
    | ok schedule =>
      apply cuts_deliver
      exact hs

/-- With scheduling off an instruction is emitted at once, so the case split is on whether there is room for one
more. -/
theorem cuts_passThrough {inst : Instruction} {entry : MachineEntry} :
    Cuts (s.passThrough inst entry) ((s.truncated capacity).passThrough inst entry) capacity
      s.encoder.emitted.length := by
  have hemit : s.encoder.emit (.ofEntry s.nextSlot inst entry) =
      .ok (s.encoder.extended [.ofEntry s.nextSlot inst entry]) := by
    rw [Encoder.emit, hs]
    rfl
  have hlength : (s.encoder.extended [.ofEntry s.nextSlot inst entry]).emitted.length =
      s.encoder.emitted.length + 1 := by simp [Encoder.extended]
  unfold passThrough
  -- the counter has moved before the instruction is emitted
  rcases Nat.lt_or_ge s.encoder.emitted.length capacity with hroom | hfull
  · simp only [truncated, hemit, Encoder.emit_truncated_of_room hroom]
    refine ⟨hs, rfl, ?_⟩
    simp only [answerWithin, hlength, Nat.not_lt.mpr hroom, and_false, if_false]
  · simp only [truncated, hemit, Encoder.emit_truncated_of_full hfull]
    refine ⟨hs, ?_, ?_⟩
    · simp only [truncated, Encoder.truncated_extended_of_full hfull]
    · simp only [answerWithin, hlength, Nat.lt_add_one, Nat.lt_succ_of_le hfull, and_self, if_true]

/-- An instruction is recorded, which does not concern the encoder, and a delimiter flushes the block. -/
theorem cuts_enqueue {inst : Instruction} {entry : MachineEntry} :
    Cuts (s.enqueue inst entry) ((s.truncated capacity).enqueue inst entry) capacity
      s.encoder.emitted.length := by
  unfold enqueue
  simp only [truncated, log]
  cases s.tracker.recordInstruction inst with
  | error f =>
    apply Cuts.quiet
    exact hs
  | ok tracker =>
    by_cases hdelim : inst.isDelimiter = true
    · simp only [hdelim, if_true]
      apply Cuts.map
      apply cuts_flush
      exact hs
    · simp only [hdelim, Bool.false_eq_true, if_false]
      apply Cuts.quiet
      exact hs

/-- An instruction that is not modeled is refused first; then it is passed through or enqueued. -/
theorem cuts_append {inst : Instruction} :
    Cuts (s.append inst) ((s.truncated capacity).append inst) capacity s.encoder.emitted.length := by
  unfold append
  simp only [truncated]
  cases s.model.entryOf inst with
  | error e =>
    apply Cuts.quiet
    exact hs
  | ok entry =>
    by_cases henabled : s.options.enabled = true
    · simp only [henabled, if_true]
      exact cuts_enqueue hs
    · simp only [henabled, Bool.false_eq_true, if_false]
      exact cuts_passThrough hs

/-- **One call** goes the same way on a code cache. Appending and flushing have been shown; discarding emits
nothing. -/
theorem cuts_perform (capacity : Nat) (call : Call) :
    Cuts (s.perform call) ((s.truncated capacity).perform call) capacity s.encoder.emitted.length := by
  cases call with
  | append inst => exact (cuts_append hs).map _
  | flush => exact (cuts_flush hs).map _
  | discard =>
    apply Cuts.quiet
    exact hs

/-- **Any calls** go the same way, by induction from the first one. -/
theorem after_truncated (capacity : Nat) (calls : List Call) :
    (s.after calls).encoder.TakesAll ∧
      (s.truncated capacity).after calls = (s.after calls).truncated capacity := by
  induction calls generalizing s with
  | nil => exact ⟨hs, rfl⟩
  | cons call rest ih =>
    have hcuts := cuts_perform hs capacity call
    obtain ⟨htakes, hafter⟩ := ih hcuts.takesAll
    refine ⟨htakes, ?_⟩
    show ((s.truncated capacity).perform call).1.after rest = _
    rw [hcuts.session_eq, hafter]
    rfl

end Operations

end Session

/-- **A full code cache only truncates the output.** After any calls, a session on a code cache has emitted as
many of the instructions that it would emit without limit as fit, from the first, and in everything but its
encoder it is where it would be: pending records, tracker and graph, number of blocks, next slot. The next call
is answered as without limit, unless it emits an instruction that does not fit; then the answer is that the
code cache is full. -/
theorem codeCache_only_truncates (model : MachineModel) (options : Options) (capacity : Nat)
    (calls : List Call) :
    let full := (Session.start model .unbounded options).after calls
    let s := (Session.start model (.bounded capacity) options).after calls
    s.encoder.emitted = full.encoder.emitted.take capacity ∧
      s = { full with encoder := s.encoder } ∧
      ∀ call, (s.perform call).2 =
        answerWithin capacity full.encoder.emitted.length
          (full.perform call).1.encoder.emitted.length (full.perform call).2 := by
  intro full s
  -- an empty code cache is the cut of an empty encoder
  have hstart : Session.start model (.bounded capacity) options =
      (Session.start model .unbounded options).truncated capacity := by
    simp [Session.start, Session.truncated, Encoder.truncated, Encoder.unbounded, Encoder.bounded]
  obtain ⟨htakes, hafter⟩ := Session.after_truncated (s := .start model .unbounded options)
    (fun _ => rfl) capacity calls
  have hs : s = full.truncated capacity := by
    show (Session.start model (.bounded capacity) options).after calls = _
    rw [hstart, hafter]
  refine ⟨?_, ?_, fun call => ?_⟩
  · rw [hs]
    rfl
  · rw [hs]
    rfl
  · rw [hs]
    exact (Session.cuts_perform htakes capacity call).answer_eq

end DualIssue
