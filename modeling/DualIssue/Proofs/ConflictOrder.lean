import DualIssue.Proofs.IssueOrder

/-!
# Conflicting accesses are connected

The tracker remembers for each resource only its last writer and the readers since, so most pairs of
accesses that must keep their order get no edge of their own. They are connected by a path all the same:
each access in the log is either still remembered or reaches the last writer.

* **`Connects`**: the invariant of log and tracker.
* **`connects_recordedBlock`**: it holds for every block.
* **`Scheduled.keeps_conflicts`**: a schedule keeps the order of two accesses to one resource of which
  one writes, the flags apart.
* **`issuesBefore_of_written`**: they issue in different cycles, also two reads with a write between.
-/

namespace DualIssue

open DualIssue.Graph

/-! ## Log and tables

The invariant `Connects` compares the log, which has all accesses, with the tables of the tracker, which have
the recent ones. It has three parts because the third cannot be kept alone: to connect a new access with an old
one the proof needs to know where the old one is remembered, which is what the first two say. -/

/-- An access that is tracked through producers and users, as all but those of the flags are. -/
def Access.IsData (access : Access) : Prop :=
  access.resource.isTracked = true ∧ access.resource ≠ .flags

namespace Tracker

/-- What the tables still know of the log. -/
structure Connects (log : List (Slot × Access)) (t : Tracker) : Prop where
  /-- An access is remembered, or it reaches the last writer. -/
  covered : ∀ {i a}, (i, a) ∈ log → a.IsData →
    i ∈ t.users a.resource ∨ ∃ p, t.producer a.resource = some p ∧ t.graph.Reaches i p
  /-- A write reaches the last writer. -/
  written : ∀ {i a}, (i, a) ∈ log → a.IsData → a.role.writes = true →
    ∃ p, t.producer a.resource = some p ∧ t.graph.Reaches i p
  /-- Two accesses of one resource, not both reads, are connected from the earlier slot to the later. -/
  ordered : ∀ {i a j c}, (i, a) ∈ log → (j, c) ∈ log → i < j → a.IsData → a.resource = c.resource →
    a.role.writes = true ∨ c.role.writes = true → t.graph.Reaches i j

theorem connects_start (latencies : LatencyTable) : Connects [] (start latencies) where
  covered h := by cases h
  written h := by cases h
  ordered h := by cases h

/-- A new slot changes no table, and paths stay paths. -/
theorem Connects.addNode {log : List (Slot × Access)} {t : Tracker} (h : Connects log t)
    (isLoad : Bool) : Connects log (t.addNode isLoad) := by
  have hreaches : ∀ {a b}, t.graph.Reaches a b → (t.addNode isLoad).graph.Reaches a b :=
    fun hab => hab.mono fun _ _ => depends_addNode.mpr
  constructor
  · intro i a hi ha
    rcases h.covered hi ha with hu | ⟨p, hp, hip⟩
    · exact Or.inl hu
    · exact Or.inr ⟨p, hp, hreaches hip⟩
  · intro i a hi ha hw
    obtain ⟨p, hp, hip⟩ := h.written hi ha hw
    exact ⟨p, hp, hreaches hip⟩
  · intro i a j c hi hj hlt ha hres hw
    exact hreaches (h.ordered hi hj hlt ha hres hw)

section Step

variable {log : List (Slot × Access)} {t : Tracker} {slot : Slot} {access : Access}

/-- **The step**: a new access is reached by every access that it conflicts with. The old one is among the
readers that a new writer asks for, or it reaches the last writer; from there the last edge is one that the new
access asks for, whether it reads or writes. -/
theorem Connects.reaches_new (h : Connects log t) (ht : t.Tidy) (hslot : slot + 1 = t.graph.size)
    {i : Slot} {a : Access} (hi : (i, a) ∈ log) (ha : a.IsData) (hres : a.resource = access.resource)
    (hw : a.role.writes = true ∨ access.role.writes = true) :
    (t.recorded access slot).graph.Reaches i slot := by
  obtain ⟨htracked, hflags⟩ := ha
  -- from the last writer on, whether the new access reads or writes
  have hproducer : ∀ {p}, t.producer a.resource = some p → t.graph.Reaches i p →
      (t.recorded access slot).graph.Reaches i slot := by
    intro p hp hip
    refine (reaches_recorded ht hslot access hip).trans ?_
    rw [hres] at hp hflags htracked
    by_cases hwrites : access.role.writes = true
    · exact (Asks.overWrite hflags hwrites hp).reaches ht hslot htracked
    · have hreads := Role.reads_of_not_writes hwrites
      exact (Asks.read hflags hreads hp).reaches ht hslot htracked
  by_cases hwrites : access.role.writes = true
  · rcases h.covered hi ⟨htracked, hflags⟩ with hu | ⟨p, hp, hip⟩
    · rw [hres] at hu hflags htracked
      exact (Asks.overUse hflags hwrites hu).reaches ht hslot htracked
    · exact hproducer hp hip
  · obtain ⟨p, hp, hip⟩ := h.written hi ⟨htracked, hflags⟩ (hw.resolve_right hwrites)
    exact hproducer hp hip

theorem mem_log_concat {i : Slot} {a : Access} (hi : (i, a) ∈ log ++ [(slot, access)]) :
    (i, a) ∈ log ∨ i = slot ∧ a = access := by
  rcases List.mem_append.mp hi with hi | hi
  · exact Or.inl hi
  · cases List.mem_singleton.mp hi
    exact Or.inr ⟨rfl, rfl⟩

/-- After a write everything about its resource reaches the new producer, which is the writing slot itself. -/
theorem Connects.overwritten (h : Connects log t) (ht : t.Tidy) (hslot : slot + 1 = t.graph.size)
    {i : Slot} {a : Access} (hi : (i, a) ∈ log ++ [(slot, access)]) (ha : a.IsData)
    (hres : a.resource = access.resource) (hwrites : access.role.writes = true) :
    ∃ p, (t.recorded access slot).producer a.resource = some p ∧
      (t.recorded access slot).graph.Reaches i p := by
  refine ⟨slot, ?_, ?_⟩
  · rw [producer_recorded, if_pos ⟨hres.symm, ha.1, ha.2, hwrites⟩]
  · rcases mem_log_concat hi with hi | ⟨rfl, rfl⟩
    · exact h.reaches_new ht hslot hi ha hres (Or.inr hwrites)
    · exact Reaches.refl _ _

/-- Where nothing is overwritten the producer stays, and so does what reaches it. -/
theorem producer_kept (ht : t.Tidy) (hslot : slot + 1 = t.graph.size) {i : Slot} {a : Access}
    (hkept : ¬ (a.resource = access.resource ∧ access.role.writes = true))
    (h : ∃ p, t.producer a.resource = some p ∧ t.graph.Reaches i p) :
    ∃ p, (t.recorded access slot).producer a.resource = some p ∧
      (t.recorded access slot).graph.Reaches i p := by
  obtain ⟨p, hp, hip⟩ := h
  refine ⟨p, ?_, reaches_recorded ht hslot access hip⟩
  rw [producer_recorded, if_neg fun hc => hkept ⟨hc.1.symm, hc.2.2.2⟩]
  exact hp

/-- An access keeps log and tables connected. For each part the question is whether the access overwrites the
resource in question: if so its slot is the new producer (`overwritten`), and if not the producer stays
(`producer_kept`). -/
theorem Connects.recorded (h : Connects log t) (ht : t.Tidy) (hslot : slot + 1 = t.graph.size)
    (hlog : ∀ e ∈ log, e.1 ≤ slot) :
    Connects (log ++ [(slot, access)]) (t.recorded access slot) := by
  constructor
  case covered =>
    intro i a hi ha
    by_cases hover : a.resource = access.resource ∧ access.role.writes = true
    · exact Or.inr (h.overwritten ht hslot hi ha hover.1 hover.2)
    · rw [users_recorded]
      rcases mem_log_concat hi with hi | ⟨rfl, rfl⟩
      · rcases h.covered hi ha with hu | hproduced
        · left
          split
          · rename_i hc
            rw [if_neg fun hwrites => hover ⟨hc.1.symm, hwrites⟩]
            exact List.mem_append_left _ hu
          · exact hu
        · exact Or.inr (producer_kept ht hslot hover hproduced)
      · left
        -- a reader that writes nothing joins the users
        rw [if_pos ⟨rfl, ha.1, ha.2⟩, if_neg fun hwrites => hover ⟨rfl, hwrites⟩]
        exact List.mem_append_right _ (List.mem_singleton.mpr rfl)
  case written =>
    intro i a hi ha hw
    by_cases hover : a.resource = access.resource ∧ access.role.writes = true
    · exact h.overwritten ht hslot hi ha hover.1 hover.2
    · rcases mem_log_concat hi with hi | ⟨rfl, rfl⟩
      · exact producer_kept ht hslot hover (h.written hi ha hw)
      · exact absurd ⟨rfl, hw⟩ hover
  case ordered =>
    intro i a j c hi hj hlt ha hres hw
    rcases mem_log_concat hi with hi' | ⟨rfl, rfl⟩
    · rcases mem_log_concat hj with hj' | ⟨rfl, rfl⟩
      · exact reaches_recorded ht hslot access (h.ordered hi' hj' hlt ha hres hw)
      · exact h.reaches_new ht hslot hi' ha hres hw
    · -- the new slot is not before any other
      rcases mem_log_concat hj with hj' | ⟨rfl, _⟩
      · exact absurd hlt (Nat.not_lt.mpr (hlog (j, c) hj'))
      · exact absurd hlt (Nat.lt_irrefl _)

end Step

/-- **Every block is connected**, by `recordedBlock_induction` over its accesses. -/
theorem connects_recordedBlock (latencies : LatencyTable) (block : List Instruction) :
    Connects (accessLog block) (recordedBlock latencies block) :=
  recordedBlock_induction (fun _ _ _ _ ht hslot hlog h => h.recorded ht hslot hlog)
    (connects_start latencies) (fun _ _ isLoad h => h.addNode isLoad) block

end Tracker

/-! ## Schedules keep conflicts in order

A schedule issues along the paths of its graph, so what is connected stays in order. Between slots of one block
this is a statement about the order; with the issue times it is one about cycles. -/

/-- A schedule issues the later of two conflicting accesses after the earlier: its order is topological, and the
two are connected. -/
theorem Scheduled.keeps_conflicts {latencies : LatencyTable} {block : List Instruction}
    {s : BlockSchedule} (h : Scheduled latencies block s) :
    s.order.Pairwise fun j i => ∀ a c, (i, a) ∈ Tracker.accessLog block →
      (j, c) ∈ Tracker.accessLog block → a.IsData → a.resource = c.resource →
      a.role.writes = true ∨ c.role.writes = true → ¬ i < j := by
  refine h.topological.imp ?_
  intro j i hnot a c hi hj ha hres hw hlt
  exact hnot (h.closes.reaches
    ((Tracker.connects_recordedBlock latencies block).ordered hi hj hlt ha hres hw))

section Cycles

variable {model : MachineModel} {options : Options} {block : List Instruction} {s : BlockSchedule}
  (henabled : options.enabled = true) (h : scheduleBlock model options block = .ok s)
  {i w j : Slot} {a b c : Access}

include henabled h

/-- Two conflicting accesses issue in different cycles, the earlier one first. -/
theorem issuesBefore_of_conflict (hi : (i, a) ∈ Tracker.accessLog block)
    (hj : (j, c) ∈ Tracker.accessLog block) (hlt : i < j) (ha : a.IsData)
    (hres : a.resource = c.resource) (hw : a.role.writes = true ∨ c.role.writes = true) :
    s.IssuesBefore i j := by
  have hreaches := (Tracker.connects_recordedBlock options.latencies block).ordered hi hj hlt ha hres hw
  obtain ⟨inst, hinst, _⟩ := Tracker.mem_accessLog_iff.mp hj
  exact issuesBefore_of_reaches henabled h
    ((scheduled_of_scheduleBlock henabled h).closes.reaches hreaches) (Nat.ne_of_lt hlt)
    (List.getElem?_eq_some_iff.mp hinst).1

/-- **Two accesses to a resource keep their order** if anything from the one to the other writes it. The writer
may be one of the two; if it is between them, each conflicts with it. -/
theorem issuesBefore_of_written (hi : (i, a) ∈ Tracker.accessLog block)
    (hw : (w, b) ∈ Tracker.accessLog block) (hj : (j, c) ∈ Tracker.accessLog block) (hlt : i < j)
    (hiw : i ≤ w) (hwj : w ≤ j) (hb : b.IsData) (hwrites : b.role.writes = true)
    (hab : a.resource = b.resource) (hbc : b.resource = c.resource) : s.IssuesBefore i j := by
  have ha : a.IsData := by
    unfold Access.IsData
    rw [hab]
    exact hb
  rcases Nat.eq_or_lt_of_le hiw with rfl | hiw
  · exact issuesBefore_of_conflict henabled h hw hj hlt hb hbc (Or.inl hwrites)
  · have hfirst := issuesBefore_of_conflict henabled h hi hw hiw ha hab (Or.inr hwrites)
    rcases Nat.eq_or_lt_of_le hwj with rfl | hwj
    · exact hfirst
    · exact hfirst.trans (issuesBefore_of_conflict henabled h hw hj hwj hb hbc (Or.inl hwrites))

end Cycles

end DualIssue
