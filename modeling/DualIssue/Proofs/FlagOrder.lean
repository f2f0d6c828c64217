import DualIssue.Proofs.IssueOrder

/-!
# How the flags order instructions

Writers of the flags are left unordered until a reader shows which of them matters, so the flags order a
block less than other resources do. This module finds out how much less. The trace of a block lists all
touches of the flags; the invariants relate what the tracker remembers to that trace.

* **`FlagTables`**: every touch is still remembered as a reader or reaches a pending writer.
* **`FlagHistory`**: a reader is reached by the last writer before it, and that one by all earlier
  writers. A writer is reached by every earlier touch if it reads the flags itself, or the touch just
  before it only reads, or the touch just after it reads.
* **`flagHistory_of_closes`**: this holds in the graph of every block, where a writer with nothing after
  it is reached by every earlier touch too.
-/

namespace DualIssue

open DualIssue.Graph

/-- A list with one more entry, taken apart at some entry: the new one, or an old one. -/
theorem concat_eq_append_cons {α : Type} {l front back : List α} {x e : α}
    (h : l ++ [x] = front ++ e :: back) :
    (front = l ∧ e = x ∧ back = []) ∨ ∃ back', back = back' ++ [x] ∧ l = front ++ e :: back' := by
  rcases List.eq_nil_or_concat' back with rfl | ⟨back', y, rfl⟩
  · obtain ⟨rfl, hx⟩ := List.append_inj' h rfl
    cases hx
    exact Or.inl ⟨rfl, rfl, rfl⟩
  · rw [← List.cons_append, ← List.append_assoc] at h
    obtain ⟨rfl, hx⟩ := List.append_inj' h rfl
    cases hx
    exact Or.inr ⟨back', rfl, rfl⟩

/-! ## The tables

Two lists about the flags are kept: writers that are not yet in order, and readers since the last write. What is
no longer in them has left a path behind. `FlagTables` says so for every touch of the trace; its last two fields
tell from the kind of the last touch whether there are readers. -/

/-- What the tracker remembers of the touches of the flags. -/
structure FlagTables (touches : List (Slot × Role)) (t : Tracker) : Prop where
  /-- The last pending writer is the last writer of all. -/
  last_writer : t.flagWriters.getLast? = (flagWriterSlots touches).getLast?
  /-- A touch is remembered as a reader, or it reaches a pending writer. -/
  covered : ∀ {q role}, (q, role) ∈ touches →
    q ∈ t.flagReaders ∨ ∃ w ∈ t.flagWriters, t.graph.Reaches q w
  /-- A writer reaches a pending writer. -/
  written : ∀ {q role}, (q, role) ∈ touches → role.writes = true →
    ∃ w ∈ t.flagWriters, t.graph.Reaches q w
  /-- Every remembered reader comes after every pending writer. -/
  seen : ∀ {r w}, r ∈ t.flagReaders → w ∈ t.flagWriters → t.graph.Reaches w r
  after_write : ∀ {q role}, touches.getLast? = some (q, role) → role.writes = true →
    t.flagReaders = []
  after_read : ∀ {q role}, touches.getLast? = some (q, role) → role.writes ≠ true →
    q ∈ t.flagReaders

theorem flagTables_start (latencies : LatencyTable) : FlagTables [] (Tracker.start latencies) where
  last_writer := rfl
  covered h := by cases h
  written h := by cases h
  seen h := by cases h
  after_write h := by cases h
  after_read h := by cases h

/-- An access to something else leaves both lists as they are, and paths stay paths. -/
theorem FlagTables.mono {touches : List (Slot × Role)} {t t' : Tracker} (h : FlagTables touches t)
    (hwriters : t'.flagWriters = t.flagWriters) (hreaders : t'.flagReaders = t.flagReaders)
    (hreaches : ∀ {a b}, t.graph.Reaches a b → t'.graph.Reaches a b) : FlagTables touches t' := by
  constructor
  · rw [hwriters]
    exact h.last_writer
  · intro q role hq
    rw [hwriters, hreaders]
    exact (h.covered hq).imp id fun ⟨w, hw, hqw⟩ => ⟨w, hw, hreaches hqw⟩
  · intro q role hq hwrites
    rw [hwriters]
    obtain ⟨w, hw, hqw⟩ := h.written hq hwrites
    exact ⟨w, hw, hreaches hqw⟩
  · intro r w hr hw
    rw [hreaders] at hr
    rw [hwriters] at hw
    exact hreaches (h.seen hr hw)
  · rw [hreaders]
    exact h.after_write
  · rw [hreaders]
    exact h.after_read

section Step

variable {touches : List (Slot × Role)} {t : Tracker} {slot : Slot} {access : Access}

/-- A read of the flags comes after the last pending writer, and that one after the others. -/
theorem reaches_of_flags_read (ht : t.Tidy) (hslot : slot + 1 = t.graph.size)
    (hres : access.resource = .flags) (hreads : access.role.reads = true) {last : Slot}
    (hlast : t.flagWriters.getLast? = some last) :
    (t.recorded access slot).graph.Reaches last slot ∧
      ∀ w ∈ t.flagWriters, (t.recorded access slot).graph.Reaches w last := by
  have htracked : access.resource.isTracked = true := by rw [hres]; rfl
  refine ⟨(Tracker.Asks.readFlags hres hreads hlast).reaches ht hslot htracked, ?_⟩
  intro w hw
  obtain ⟨others, hothers⟩ := List.getLast?_eq_some_iff.mp hlast
  rw [hothers] at hw
  rcases List.mem_append.mp hw with hw | hw
  · have hdrop : w ∈ t.flagWriters.dropLast := by rw [hothers, List.dropLast_concat]; exact hw
    exact (Tracker.Asks.settleFlags hres hreads hlast hdrop).reaches ht hslot htracked
  · rw [List.mem_singleton.mp hw]
    exact Reaches.refl _ _

/-- A write of the flags comes after every reader that is remembered. -/
theorem reaches_of_flags_write (ht : t.Tidy) (hslot : slot + 1 = t.graph.size)
    (hres : access.resource = .flags) (hwrites : access.role.writes = true) {r : Slot}
    (hr : r ∈ t.flagReaders) : (t.recorded access slot).graph.Reaches r slot := by
  have htracked : access.resource.isTracked = true := by rw [hres]; rfl
  exact (Tracker.Asks.overFlags hres hwrites hr).reaches ht hslot htracked

/-- Whatever reaches a pending writer reaches one that is still pending after an access. The writers that a read
drops have just been put before the one that it keeps. -/
theorem exists_reaches_pending (ht : t.Tidy) (hslot : slot + 1 = t.graph.size)
    (hres : access.resource = .flags) {q w : Slot} (hw : w ∈ t.flagWriters)
    (hqw : t.graph.Reaches q w) :
    ∃ w' ∈ (t.recorded access slot).flagWriters, (t.recorded access slot).graph.Reaches q w' := by
  have hqw := Tracker.reaches_recorded ht hslot access hqw
  rw [Tracker.flagWriters_recorded, if_pos hres]
  by_cases hreads : access.role.reads = true
  · -- a read leaves the last writer only, but puts the others before it
    obtain ⟨last, hlast⟩ : ∃ last, t.flagWriters.getLast? = some last :=
      ⟨_, List.getLast?_eq_some_getLast (List.ne_nil_of_mem hw)⟩
    rw [if_pos hreads, hlast]
    refine ⟨last, List.mem_append_left _ (List.mem_singleton.mpr rfl), ?_⟩
    exact hqw.trans ((reaches_of_flags_read ht hslot hres hreads hlast).2 w hw)
  · rw [if_neg hreads]
    exact ⟨w, List.mem_append_left _ hw, hqw⟩

theorem mem_flagWriters_of_writes (hres : access.resource = .flags)
    (hwrites : access.role.writes = true) : slot ∈ (t.recorded access slot).flagWriters := by
  rw [Tracker.flagWriters_recorded, if_pos hres, if_pos hwrites]
  exact List.mem_append_right _ (List.mem_singleton.mpr rfl)

/-- **The step of the tables.** Field by field, for an old touch and for the new one, and by whether the new one
writes: a write empties the readers, who then reach it, and joins the writers; a read joins the readers and
leaves one writer. -/
theorem FlagTables.recorded (h : FlagTables touches t) (ht : t.Tidy) (hslot : slot + 1 = t.graph.size)
    (hres : access.resource = .flags) :
    FlagTables (touches ++ [(slot, access.role)]) (t.recorded access slot) := by
  have hwriters : (t.recorded access slot).flagWriters = _ := Tracker.flagWriters_recorded
  have hreaders : (t.recorded access slot).flagReaders = _ := Tracker.flagReaders_recorded
  rw [if_pos hres] at hwriters hreaders
  constructor
  case last_writer =>
    rw [hwriters, flagWriterSlots_append]
    by_cases hwrites : access.role.writes = true
    · simp [flagWriterSlots, hwrites]
    · have hnone : flagWriterSlots [(slot, access.role)] = [] := by simp [flagWriterSlots, hwrites]
      rw [if_pos (Role.reads_of_not_writes hwrites), if_neg hwrites, hnone, List.append_nil,
        List.append_nil, ← h.last_writer]
      cases t.flagWriters.getLast? <;> rfl
  case covered =>
    intro q role hq
    rcases List.mem_append.mp hq with hq | hq
    · -- a reader that a write forgets reaches this write
      rcases h.covered hq with hr | ⟨w, hw, hqw⟩
      · by_cases hwrites : access.role.writes = true
        · exact Or.inr ⟨slot, mem_flagWriters_of_writes hres hwrites,
            reaches_of_flags_write ht hslot hres hwrites hr⟩
        · rw [hreaders, if_neg hwrites]
          exact Or.inl (List.mem_append_left _ hr)
      · exact Or.inr (exists_reaches_pending ht hslot hres hw hqw)
    · cases List.mem_singleton.mp hq
      by_cases hwrites : access.role.writes = true
      · exact Or.inr ⟨slot, mem_flagWriters_of_writes hres hwrites, Reaches.refl _ _⟩
      · rw [hreaders, if_neg hwrites]
        exact Or.inl (List.mem_append_right _ (List.mem_singleton.mpr rfl))
  case written =>
    intro q role hq hwrites
    rcases List.mem_append.mp hq with hq | hq
    · obtain ⟨w, hw, hqw⟩ := h.written hq hwrites
      exact exists_reaches_pending ht hslot hres hw hqw
    · cases List.mem_singleton.mp hq
      exact ⟨slot, mem_flagWriters_of_writes hres hwrites, Reaches.refl _ _⟩
  case seen =>
    intro r w hr hw
    rw [hreaders] at hr
    split at hr
    · cases hr
    · rename_i hwrites
      have hreads := Role.reads_of_not_writes hwrites
      rw [hwriters, if_pos hreads, if_neg hwrites, List.append_nil] at hw
      have hlast : t.flagWriters.getLast? = some w := Option.mem_toList.mp hw
      rcases List.mem_append.mp hr with hr | hr
      · exact Tracker.reaches_recorded ht hslot access (h.seen hr (List.mem_of_getLast? hlast))
      · rw [List.mem_singleton.mp hr]
        exact (reaches_of_flags_read ht hslot hres hreads hlast).1
  case after_write =>
    intro q role hlast hwrites
    rw [List.getLast?_concat] at hlast
    cases hlast
    rw [hreaders, if_pos hwrites]
  case after_read =>
    intro q role hlast hwrites
    rw [List.getLast?_concat] at hlast
    cases hlast
    rw [hreaders, if_neg hwrites]
    exact List.mem_append_right _ (List.mem_singleton.mpr rfl)

end Step

/-! ## The history

While the tables are about what is pending, the history is about what has been decided for good. It is stated by
cutting the trace at a touch. A cut of the longer trace is at the new touch or is an old cut
(`concat_eq_append_cons`), and for an old cut the only thing that can change is what comes just after it. -/

/-- A write of the flags is settled if the reads and writes next to it say when it happens: it reads them
itself, or the touch just before it only reads, or the touch just after it reads. -/
def SettledWrite (front : List (Slot × Role)) (role : Role) (back : List (Slot × Role)) : Prop :=
  role.reads = true ∨ (∃ q r, front.getLast? = some (q, r) ∧ r.writes ≠ true) ∨
    ∃ q r, back.head? = some (q, r) ∧ r.reads = true

/-- How the touches of the flags are connected. -/
structure FlagHistory (touches : List (Slot × Role)) (g : Graph) : Prop where
  /-- A reader comes after the last writer before it, and that one after all earlier writers. -/
  reads : ∀ {front q role back}, touches = front ++ (q, role) :: back → role.reads = true →
    ∀ {w}, (flagWriterSlots front).getLast? = some w →
      g.Reaches w q ∧ ∀ k ∈ flagWriterSlots front, g.Reaches k w
  /-- A settled write comes after every earlier touch. -/
  settled : ∀ {front k role back}, touches = front ++ (k, role) :: back → role.writes = true →
    SettledWrite front role back → ∀ {q r}, (q, r) ∈ front → g.Reaches q k

theorem flagHistory_nil (g : Graph) : FlagHistory [] g where
  reads h := absurd h (List.append_ne_nil_of_right_ne_nil _ (List.cons_ne_nil _ _)).symm
  settled h := absurd h (List.append_ne_nil_of_right_ne_nil _ (List.cons_ne_nil _ _)).symm

/-- The history only asks for paths, so it stays when there are more. -/
theorem FlagHistory.mono {touches : List (Slot × Role)} {g g' : Graph} (h : FlagHistory touches g)
    (hreaches : ∀ {a b}, g.Reaches a b → g'.Reaches a b) : FlagHistory touches g' where
  reads heq hreads _ hw :=
    ⟨hreaches (h.reads heq hreads hw).1, fun k hk => hreaches ((h.reads heq hreads hw).2 k hk)⟩
  settled heq hwrites hsettled _ _ hq := hreaches (h.settled heq hwrites hsettled hq)

theorem mem_flagWriterSlots_iff {touches : List (Slot × Role)} {w : Slot} :
    w ∈ flagWriterSlots touches ↔ ∃ role, (w, role) ∈ touches ∧ role.writes = true := by
  unfold flagWriterSlots
  constructor
  · intro h
    obtain ⟨⟨q, role⟩, he, rfl⟩ := List.mem_map.mp h
    obtain ⟨hmem, hwrites⟩ := List.mem_filter.mp he
    exact ⟨role, hmem, hwrites⟩
  · rintro ⟨role, hmem, hwrites⟩
    exact List.mem_map.mpr ⟨(w, role), List.mem_filter.mpr ⟨hmem, hwrites⟩, rfl⟩

section HistoryStep

variable {touches : List (Slot × Role)} {t : Tracker} {slot : Slot} {access : Access}

/-- A read of the flags orders all writers before it. The last pending writer is the last of all, a read puts
the pending ones before it, and every other writer reaches a pending one. -/
theorem FlagTables.reads_new (h : FlagTables touches t) (ht : t.Tidy)
    (hslot : slot + 1 = t.graph.size) (hres : access.resource = .flags)
    (hreads : access.role.reads = true) {w : Slot}
    (hw : (flagWriterSlots touches).getLast? = some w) :
    (t.recorded access slot).graph.Reaches w slot ∧
      ∀ k ∈ flagWriterSlots touches, (t.recorded access slot).graph.Reaches k w := by
  rw [← h.last_writer] at hw
  obtain ⟨hread, hsettle⟩ := reaches_of_flags_read ht hslot hres hreads hw
  refine ⟨hread, fun k hk => ?_⟩
  obtain ⟨role, hmem, hwrites⟩ := mem_flagWriterSlots_iff.mp hk
  obtain ⟨w', hw', hkw⟩ := h.written hmem hwrites
  exact (Tracker.reaches_recorded ht hslot access hkw).trans (hsettle w' hw')

/-- A write that reads, or comes just after a read, comes after every touch before it. A touch that is
remembered as a reader gets an edge. One that reaches a pending writer goes on through the last writer or
through the reader just before, whichever there is. -/
theorem FlagTables.settled_new (h : FlagTables touches t) (ht : t.Tidy)
    (hslot : slot + 1 = t.graph.size) (hres : access.resource = .flags)
    (hwrites : access.role.writes = true)
    (hsettled : access.role.reads = true ∨
      ∃ q r, touches.getLast? = some (q, r) ∧ r.writes ≠ true)
    {q : Slot} {role : Role} (hq : (q, role) ∈ touches) :
    (t.recorded access slot).graph.Reaches q slot := by
  rcases h.covered hq with hr | ⟨w, hw, hqw⟩
  · exact reaches_of_flags_write ht hslot hres hwrites hr
  · refine (Tracker.reaches_recorded ht hslot access hqw).trans ?_
    rcases hsettled with hreads | ⟨r, role', hlast, hnot⟩
    · obtain ⟨last, hlast⟩ : ∃ last, t.flagWriters.getLast? = some last :=
        ⟨_, List.getLast?_eq_some_getLast (List.ne_nil_of_mem hw)⟩
      obtain ⟨hread, hsettle⟩ := reaches_of_flags_read ht hslot hres hreads hlast
      exact (hsettle w hw).trans hread
    · -- through the reader that comes just before
      have hr := h.after_read hlast hnot
      exact (Tracker.reaches_recorded ht hslot access (h.seen hr hw)).trans
        (reaches_of_flags_write ht hslot hres hwrites hr)

/-- A read just after a write puts every earlier touch before that write. After a write no reader is remembered,
so the touch reaches a pending writer, and the read puts that one before the last. -/
theorem FlagTables.settled_last (h : FlagTables touches t) (ht : t.Tidy)
    (hslot : slot + 1 = t.graph.size) (hres : access.resource = .flags)
    (hreads : access.role.reads = true) {front : List (Slot × Role)} {k : Slot} {role : Role}
    (htouches : touches = front ++ [(k, role)]) (hwrites : role.writes = true)
    {q : Slot} {r : Role} (hq : (q, r) ∈ front) : (t.recorded access slot).graph.Reaches q k := by
  have hlast : t.flagWriters.getLast? = some k := by
    rw [h.last_writer, htouches, flagWriterSlots_append]
    simp [flagWriterSlots, hwrites]
  have hempty : t.flagReaders = [] :=
    h.after_write (by rw [htouches, List.getLast?_concat]) hwrites
  have hmem : (q, r) ∈ touches := by
    rw [htouches]
    exact List.mem_append_left _ hq
  rcases h.covered hmem with hr | ⟨w, hw, hqw⟩
  · rw [hempty] at hr
    cases hr
  · exact (Tracker.reaches_recorded ht hslot access hqw).trans
      ((reaches_of_flags_read ht hslot hres hreads hlast).2 w hw)

/-- **The step of the history.** At the new touch it is `reads_new` or `settled_new`. At an old one it has been
said before, unless the new touch is the read that settles the write just before it (`settled_last`). -/
theorem FlagHistory.recorded (hh : FlagHistory touches t.graph) (h : FlagTables touches t)
    (ht : t.Tidy) (hslot : slot + 1 = t.graph.size) (hres : access.resource = .flags) :
    FlagHistory (touches ++ [(slot, access.role)]) (t.recorded access slot).graph := by
  have hold := hh.mono fun hab => Tracker.reaches_recorded ht hslot access hab
  constructor
  case reads =>
    intro front q role back heq hreads w hw
    rcases concat_eq_append_cons heq with ⟨rfl, hnew, rfl⟩ | ⟨back', rfl, htouches⟩
    · cases hnew
      exact h.reads_new ht hslot hres hreads hw
    · exact hold.reads htouches hreads hw
  case settled =>
    intro front k role back heq hwrites hsettled q r hq
    rcases concat_eq_append_cons heq with ⟨rfl, hnew, rfl⟩ | ⟨back', rfl, htouches⟩
    · cases hnew
      refine h.settled_new ht hslot hres hwrites ?_ hq
      rcases hsettled with hreads | hbefore | ⟨_, _, hhead, _⟩
      · exact Or.inl hreads
      · exact Or.inr hbefore
      · cases hhead
    · rcases hsettled with hreads | hbefore | ⟨q', r', hhead, hreads⟩
      · exact hold.settled htouches hwrites (Or.inl hreads) hq
      · exact hold.settled htouches hwrites (Or.inr (Or.inl hbefore)) hq
      · cases back' with
        | nil =>
          -- the new touch is the read that settles the last write
          cases hhead
          exact h.settled_last ht hslot hres hreads htouches hwrites hq
        | cons e back' =>
          exact hold.settled htouches hwrites (Or.inr (Or.inr ⟨q', r', hhead, hreads⟩)) hq

end HistoryStep

/-! ## Whole blocks

Recording a block keeps both invariants, and closing it puts the pending writers in order. So in the closed
graph a write with nothing after it is settled too, and the last writer of the block comes after all others. -/

/-- **Tables and history hold for every block.** By `recordedBlock_induction`; an access to another resource
adds no entry to the trace and leaves the tables alone. -/
theorem flagOrder_recordedBlock (latencies : LatencyTable) (block : List Instruction) :
    FlagTables (flagTrace block) (Tracker.recordedBlock latencies block) ∧
      FlagHistory (flagTrace block) (Tracker.recordedBlock latencies block).graph := by
  rw [← flagEntries_accessLog]
  refine Tracker.recordedBlock_induction
    (P := fun log t => FlagTables (flagEntries log) t ∧ FlagHistory (flagEntries log) t.graph) ?_
    ⟨flagTables_start latencies, flagHistory_nil _⟩ ?_ block
  · rintro log t slot access ht hslot _ ⟨htables, hhistory⟩
    rw [flagEntries_concat]
    by_cases hres : access.resource = .flags
    · rw [if_pos hres]
      exact ⟨htables.recorded ht hslot hres, hhistory.recorded htables ht hslot hres⟩
    · -- another resource leaves the tables of the flags as they are, and paths stay
      have hkeep : ∀ {a b}, t.graph.Reaches a b → (t.recorded access slot).graph.Reaches a b :=
        fun hab => Tracker.reaches_recorded ht hslot access hab
      rw [if_neg hres, List.append_nil]
      refine ⟨htables.mono ?_ ?_ hkeep, hhistory.mono hkeep⟩
      · rw [Tracker.flagWriters_recorded, if_neg hres]
      · rw [Tracker.flagReaders_recorded, if_neg hres]
  · rintro log t isLoad ⟨htables, hhistory⟩
    have hkeep : ∀ {a b}, t.graph.Reaches a b → (t.addNode isLoad).graph.Reaches a b :=
      fun hab => hab.mono fun _ _ => depends_addNode.mpr
    exact ⟨htables.mono rfl rfl hkeep, hhistory.mono hkeep⟩

section Closed

variable {latencies : LatencyTable} {block : List Instruction} {g : Graph}
  (hg : (Tracker.recordedBlock latencies block).Closes g)

include hg

/-- Closing a block keeps the history. -/
theorem flagHistory_of_closes : FlagHistory (flagTrace block) g :=
  (flagOrder_recordedBlock latencies block).2.mono hg.reaches

/-- Closing the block puts the pending writers before the last of them. -/
theorem reaches_of_pending {w last : Slot}
    (hw : w ∈ (Tracker.recordedBlock latencies block).flagWriters)
    (hlast : (Tracker.recordedBlock latencies block).flagWriters.getLast? = some last) :
    g.Reaches w last := by
  obtain ⟨others, hothers⟩ := List.getLast?_eq_some_iff.mp hlast
  rw [hothers] at hw
  rcases List.mem_append.mp hw with hw | hw
  · refine (hg.depends_iff.mpr (Or.inr ⟨?_, hlast⟩)).reaches
    rw [hothers, List.dropLast_concat]
    exact hw
  · rw [List.mem_singleton.mp hw]
    exact Reaches.refl _ _

/-- Closing the block settles a write that nothing comes after, in the way in which a read would have done
(`FlagTables.settled_last`). -/
theorem reaches_of_last_write {front : List (Slot × Role)} {k : Slot} {role : Role}
    (htrace : flagTrace block = front ++ [(k, role)]) (hwrites : role.writes = true) {q : Slot}
    {r : Role} (hq : (q, r) ∈ front) : g.Reaches q k := by
  have htables := (flagOrder_recordedBlock latencies block).1
  have hlast : (Tracker.recordedBlock latencies block).flagWriters.getLast? = some k := by
    rw [htables.last_writer, htrace, flagWriterSlots_append]
    simp [flagWriterSlots, hwrites]
  have hempty := htables.after_write (by rw [htrace, List.getLast?_concat]) hwrites
  have hmem : (q, r) ∈ flagTrace block := by
    rw [htrace]
    exact List.mem_append_left _ hq
  rcases htables.covered hmem with hr | ⟨w, hw, hqw⟩
  · rw [hempty] at hr
    cases hr
  · exact (hg.reaches hqw).trans (reaches_of_pending hg hw hlast)

/-- The last writer of the flags in a block comes after all others, also if there are reads after it. -/
theorem reaches_of_last_writer {w k : Slot}
    (hw : (flagWriterSlots (flagTrace block)).getLast? = some w)
    (hk : k ∈ flagWriterSlots (flagTrace block)) : g.Reaches k w := by
  have htables := (flagOrder_recordedBlock latencies block).1
  obtain ⟨role, hmem, hwrites⟩ := mem_flagWriterSlots_iff.mp hk
  obtain ⟨pending, hpending, hreaches⟩ := htables.written hmem hwrites
  exact (hg.reaches hreaches).trans (reaches_of_pending hg hpending (htables.last_writer.trans hw))

end Closed

end DualIssue
