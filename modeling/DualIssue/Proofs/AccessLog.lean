import DualIssue.Proofs.InstructionAccesses
import DualIssue.Proofs.Recording

/-!
# The accesses of a block

A block is recorded access by access. The log lists them with their slots, so that an invariant of the
tracker can speak about all that has been recorded, whatever the tables have forgotten.

* **`recordedBlock_induction`**: a property of log and tracker that every access keeps holds for every
  block.
* **`flagTrace`**: how a block touches the flags. The pending writers of the tracker are among the
  writers in the trace, in order (`flagWriters_sublist`).
* **`finish_recordedBlock`**: closing a block succeeds; the graph has forward edges only, those recorded
  and those that keep the last writer of the flags last.
-/

namespace DualIssue

open DualIssue.Graph

namespace Tracker

/-! ## The log

The log of a block is a plain list: slot after slot, and within a slot in the order in which the tracker takes
the accesses. It is written from the front (`accessLog`), but every induction over it runs from the back
(`accessLog_concat`), since the slot of the last instruction is the length of what is before it. -/

/-- The recorded accesses of a block with their slots, in recording order. -/
def accessLog (block : List Instruction) : List (Slot × Access) :=
  block.zipIdx.flatMap fun (inst, slot) => (recordedAccesses inst).map (slot, ·)

/-- One more instruction appends its accesses, under the slot that is next. -/
theorem accessLog_concat (block : List Instruction) (inst : Instruction) :
    accessLog (block ++ [inst]) =
      accessLog block ++ (recordedAccesses inst).map (block.length, ·) := by
  simp [accessLog, List.zipIdx_append]

/-- An access is in the log under a slot exactly if the instruction in that slot makes it. Both directions go
through the index of the instruction in the block. -/
theorem mem_accessLog_iff {block : List Instruction} {slot : Slot} {access : Access} :
    (slot, access) ∈ accessLog block ↔
      ∃ inst, block[slot]? = some inst ∧ access ∈ recordedAccesses inst := by
  unfold accessLog
  constructor
  · intro h
    obtain ⟨⟨inst, i⟩, hinst, hmem⟩ := List.mem_flatMap.mp h
    obtain ⟨a, ha, hpair⟩ := List.mem_map.mp hmem
    cases hpair
    exact ⟨inst, List.mem_zipIdx_iff_getElem?.mp hinst, ha⟩
  · rintro ⟨inst, hinst, ha⟩
    refine List.mem_flatMap.mpr ⟨(inst, slot), List.mem_zipIdx_iff_getElem?.mpr hinst, ?_⟩
    exact List.mem_map.mpr ⟨access, ha, rfl⟩

/-- All accesses that reach the tracker are of tracked resources: those of the instruction are
(`allTracked_accesses`), and the one that a volatile instruction adds is to memory. -/
theorem allTracked_recordedAccesses (inst : Instruction) : AllTracked (recordedAccesses inst) := by
  unfold recordedAccesses
  rw [allTracked_append]
  refine ⟨allTracked_accesses inst, ?_⟩
  split
  · exact allTracked_cons.mpr ⟨rfl, allTracked_nil⟩
  · exact allTracked_nil

section Induction

variable {P : List (Slot × Access) → Tracker → Prop}
  (hrecord : ∀ log t slot access, t.Tidy → slot + 1 = t.graph.size → (∀ e ∈ log, e.1 ≤ slot) →
    P log t → P (log ++ [(slot, access)]) (t.recorded access slot))

include hrecord

/-- What an access keeps, all accesses of a slot keep. Induction on the accesses; the bound on the slots of the
log is carried along, because every entry that is added has the slot itself. -/
theorem recordedAll_induction {log : List (Slot × Access)} {t : Tracker} (ht : t.Tidy) {slot : Slot}
    (hslot : slot + 1 = t.graph.size) (hlog : ∀ e ∈ log, e.1 ≤ slot) (hP : P log t)
    (accesses : List Access) :
    P (log ++ accesses.map (slot, ·)) (t.recordedAll accesses slot) := by
  induction accesses generalizing log t with
  | nil =>
    rw [List.map_nil, List.append_nil]
    exact hP
  | cons access rest ih =>
    -- the new entry has the current slot, so the bound on the log survives it
    have hlog' : ∀ e ∈ log ++ [(slot, access)], e.1 ≤ slot := by
      intro e he
      rcases List.mem_append.mp he with he | he
      · exact hlog e he
      · exact Nat.le_of_eq (congrArg Prod.fst (List.mem_singleton.mp he))
    rw [List.map_cons, List.append_cons]
    exact ih (ht.recorded hslot access) (by rw [size_recorded]; exact hslot) hlog'
      (hrecord log t slot access ht hslot hlog hP)

/-- **Invariants of recording.** What holds before the first instruction and is kept by every new slot
and every access holds after every block. -/
theorem recordedBlock_induction {latencies : LatencyTable} (hstart : P [] (start latencies))
    (hnode : ∀ log t isLoad, P log t → P log (t.addNode isLoad)) (block : List Instruction) :
    P (accessLog block) (recordedBlock latencies block) := by
  -- from the last instruction backwards, since its slot is the length of what is before it
  induction block using List.reverseRecOn with
  | nil => exact hstart
  | append_singleton block inst ih =>
    obtain ⟨htidy, hsize⟩ := tidy_recordedBlock latencies block
    -- the slots of the log are those of the instructions before this one
    have hlog : ∀ e ∈ accessLog block, e.1 ≤ (recordedBlock latencies block).graph.size := by
      rintro ⟨slot, access⟩ he
      obtain ⟨inst, hinst, _⟩ := mem_accessLog_iff.mp he
      rw [hsize]
      exact Nat.le_of_lt (List.getElem?_eq_some_iff.mp hinst).1
    have hall := recordedAll_induction hrecord (htidy.addNode inst.isMemoryLoad)
      (size_graph_addNode _ _).symm hlog (hnode _ _ inst.isMemoryLoad ih) (recordedAccesses inst)
    rw [accessLog_concat, recordedBlock, List.foldl_append]
    rw [hsize] at hall
    show P _ ((recordedBlock latencies block).recordedInstruction inst)
    unfold recordedInstruction
    rw [hsize]
    exact hall

end Induction

end Tracker

/-! ## The flags in the log

The flags are the one resource of which the tracker remembers more than one writer: all that no reader has put
in order yet. What it remembers is compared with the trace of the flags, which is the part of the log that
concerns them (`flagEntries_accessLog`). The trace forgets nothing, so the order of its writers is program
order, and the pending writers inherit it. -/

/-- How a block touches the flags: the slots and their roles, in recording order. -/
def flagTrace (block : List Instruction) : List (Slot × Role) :=
  block.zipIdx.flatMap fun (inst, slot) => (flagRoles inst.accesses).map (slot, ·)

/-- One more instruction appends its own touches of the flags, under the slot that is next. -/
theorem flagTrace_concat (block : List Instruction) (inst : Instruction) :
    flagTrace (block ++ [inst]) =
      flagTrace block ++ (flagRoles inst.accesses).map (block.length, ·) := by
  simp [flagTrace, List.zipIdx_append]

/-- The part of a log that concerns the flags. -/
def flagEntries (log : List (Slot × Access)) : List (Slot × Role) :=
  (log.filter (·.2.resource = .flags)).map fun e => (e.1, e.2.role)

theorem flagEntries_append (log log' : List (Slot × Access)) :
    flagEntries (log ++ log') = flagEntries log ++ flagEntries log' := by
  simp [flagEntries]

/-- One more access adds an entry if it is to the flags, and none otherwise. -/
theorem flagEntries_concat (log : List (Slot × Access)) (slot : Slot) (access : Access) :
    flagEntries (log ++ [(slot, access)]) =
      flagEntries log ++ if access.resource = .flags then [(slot, access.role)] else [] := by
  rw [flagEntries_append]
  congr 1
  by_cases h : access.resource = .flags <;> simp [flagEntries, h]

/-- Within a slot, the entries are the roles in which the instruction uses the flags. -/
theorem flagEntries_map (slot : Slot) (accesses : List Access) :
    flagEntries (accesses.map (slot, ·)) = (flagRoles accesses).map (slot, ·) := by
  simp [flagEntries, flagRoles, List.filter_map, Function.comp_def]

/-- The access that a volatile instruction adds is to memory, so it does not change how the instruction touches
the flags. -/
theorem flagRoles_recordedAccesses (inst : Instruction) :
    flagRoles (Tracker.recordedAccesses inst) = flagRoles inst.accesses := by
  rw [Tracker.recordedAccesses, flagRoles_append]
  split
  · exact List.append_nil _
  · exact List.append_nil _

/-- The trace of a block is the part of its log that concerns the flags. Induction from the last instruction
backwards; the step is `flagEntries_map` for the instruction that is added. -/
theorem flagEntries_accessLog (block : List Instruction) :
    flagEntries (Tracker.accessLog block) = flagTrace block := by
  induction block using List.reverseRecOn with
  | nil => rfl
  | append_singleton block inst ih =>
    rw [Tracker.accessLog_concat, flagEntries_append, flagEntries_map, ih, flagRoles_recordedAccesses,
      flagTrace_concat]

/-- The writers of the flags among touches of the flags. -/
def flagWriterSlots (touches : List (Slot × Role)) : List Slot :=
  (touches.filter (·.2.writes)).map (·.1)

theorem flagWriterSlots_append (l l' : List (Slot × Role)) :
    flagWriterSlots (l ++ l') = flagWriterSlots l ++ flagWriterSlots l' := by
  simp [flagWriterSlots]

/-- Does the instruction in this slot write the flags? -/
def writesFlagsAt (block : List Instruction) (slot : Slot) : Bool :=
  block[slot]?.any (·.writesFlags)

/-- The writers of a block, in program order and each once. An instruction that reads the flags before it writes
them has two touches in the trace but writes only once, so that the trace of one instruction is a case split
over `readsFlags` and `writesFlags`. -/
theorem flagWriterSlots_flagTrace (block : List Instruction) :
    flagWriterSlots (flagTrace block) =
      (List.range block.length).filter (writesFlagsAt block) := by
  induction block using List.reverseRecOn with
  | nil => rfl
  | append_singleton block inst ih =>
    -- the instructions before the last are where they were
    have hold : (List.range block.length).filter (writesFlagsAt (block ++ [inst])) =
        (List.range block.length).filter (writesFlagsAt block) := by
      refine List.filter_congr fun slot hslot => ?_
      rw [writesFlagsAt, List.getElem?_append_left (List.mem_range.mp hslot)]
      rfl
    have hnew : flagWriterSlots ((flagRoles inst.accesses).map (block.length, ·)) =
        [block.length].filter (writesFlagsAt (block ++ [inst])) := by
      have hinst : (block ++ [inst])[block.length]? = some inst := by simp
      rw [flagRoles_accesses, List.filter_cons, writesFlagsAt, hinst, Option.any_some]
      cases inst.readsFlags <;> cases inst.writesFlags <;> rfl
    rw [flagTrace_concat, flagWriterSlots_append, ih, hnew, List.length_append, List.length_singleton,
      List.range_succ, List.filter_append, hold]

namespace Tracker

/-- The pending writers are writers in the log, in the order of the log. By `recordedBlock_induction`: an access
to the flags appends the same slot on both sides if it writes, and all that the tracker does beyond that is to
drop pending writers other than the last. -/
theorem flagWriters_sublist (latencies : LatencyTable) (block : List Instruction) :
    (recordedBlock latencies block).flagWriters.Sublist (flagWriterSlots (flagTrace block)) := by
  rw [← flagEntries_accessLog]
  refine recordedBlock_induction
    (P := fun log t => t.flagWriters.Sublist (flagWriterSlots (flagEntries log))) ?_
    (List.nil_sublist _) (fun _ _ _ h => h) block
  intro log t slot access _ _ _ h
  rw [flagWriters_recorded, flagEntries_concat]
  split
  · rw [flagWriterSlots_append]
    refine List.Sublist.append ?_ ?_
    · -- a reader leaves only the last of the pending writers
      split
      · exact (toList_getLast?_sublist _).trans h
      · exact h
    · cases access.role <;> exact List.Sublist.refl _
  · rw [List.append_nil]
    exact h

/-- The pending writers ascend: they are a part of the writers in the trace, which are a filtered range. -/
theorem flagWriters_pairwise (latencies : LatencyTable) (block : List Instruction) :
    (recordedBlock latencies block).flagWriters.Pairwise (· < ·) := by
  refine List.Pairwise.sublist (flagWriters_sublist latencies block) ?_
  rw [flagWriterSlots_flagTrace]
  exact List.pairwise_lt_range.filter _

/-! ## Closing a block

Closing adds the edges that keep the last writer of the flags last, and then turns the lists of predecessors
into lists of successors. The first step needs the slots to exist and the second needs the sources to exist;
both follow once the edges that are added lead forward. What the closed graph keeps of the tracker is
the structure `Closes`, and later modules use its fields only. -/

/-- What the graph of a closed block has in common with the tracker. -/
structure Closes (t : Tracker) (g : Graph) : Prop where
  size_eq : g.size = t.graph.size
  inverted : g.Inverted
  forward : g.Forward
  depends_iff : ∀ {source target : Slot}, g.Depends source target ↔
    t.graph.Depends source target ∨
      source ∈ t.flagWriters.dropLast ∧ t.flagWriters.getLast? = some target
  latency_eq : ∀ {slot d}, d ∈ g.predsOf slot →
    d ∈ t.graph.predsOf slot ∨ d.latency = t.latencies.get .plain

/-- The ends of the edges that keep the last writer last: from every pending writer but the last, to the last.
If there is no pending writer, there are no such edges and no such ends. -/
theorem exists_mem_liveOutEdges_iff {t : Tracker} {source target : Slot} :
    (∃ e ∈ t.liveOutEdges, e.source = source ∧ e.target = target) ↔
      source ∈ t.flagWriters.dropLast ∧ t.flagWriters.getLast? = some target := by
  unfold liveOutEdges
  split
  · rename_i last hlast
    constructor
    · rintro ⟨e, he, rfl, rfl⟩
      obtain ⟨w, hw, rfl⟩ := List.mem_map.mp he
      exact ⟨hw, hlast⟩
    · rintro ⟨hsource, htarget⟩
      cases hlast.symm.trans htarget
      exact ⟨_, List.mem_map.mpr ⟨source, hsource, rfl⟩, rfl, rfl⟩
  · rename_i hnone
    constructor
    · rintro ⟨_, he, _⟩
      cases he
    · rintro ⟨_, htarget⟩
      cases hnone.symm.trans htarget

/-- The edges that keep the last writer last have the latency of a plain dependence. -/
theorem latency_of_mem_liveOutEdges {t : Tracker} {e : Edge} (he : e ∈ t.liveOutEdges) :
    e.latency = t.latencies.get .plain := by
  unfold liveOutEdges at he
  split at he
  · obtain ⟨w, _, rfl⟩ := List.mem_map.mp he
    rfl
  · cases he

/-- The edges lead from pending writers to the last of them, hence forward if these ascend. Their targets exist
because a tidy tracker has seen every pending writer. -/
theorem Tidy.liveOutEdges_forward {t : Tracker} (ht : t.Tidy)
    (hsorted : t.flagWriters.Pairwise (· < ·)) :
    ∀ e ∈ t.liveOutEdges, e.source < e.target ∧ e.target < t.graph.size := by
  intro e he
  obtain ⟨hsource, htarget⟩ := exists_mem_liveOutEdges_iff.mp ⟨e, he, rfl, rfl⟩
  refine ⟨?_, ht.writers_lt (List.mem_of_getLast? htarget)⟩
  obtain ⟨others, hothers⟩ := List.getLast?_eq_some_iff.mp htarget
  rw [hothers] at hsorted hsource
  rw [List.dropLast_concat] at hsource
  exact (List.pairwise_append.mp hsorted).2.2 _ hsource _ (List.mem_singleton.mpr rfl)

/-- So all edges lead forward after they have been added: those of the tracker did before, by `Tidy.forward`. -/
theorem Tidy.forward_liveOutEdges {t : Tracker} (ht : t.Tidy)
    (hsorted : t.flagWriters.Pairwise (· < ·)) : (t.graph.insertEdges t.liveOutEdges).Forward := by
  have hlt := ht.liveOutEdges_forward hsorted
  intro source target h
  rcases (depends_insertEdges_iff fun e he => (hlt e he).2).mp h with h | ⟨e, he, rfl, rfl⟩
  · exact ht.forward source target h
  · exact (hlt e he).1

/-- A tidy tracker whose pending writers ascend can be closed. No slot is missing while edges are added
(`liveOutEdges_forward`) nor while they are inverted, and the fields of `Closes` are read off the lemmas about
`insertEdges` and about `invert`. -/
theorem Tidy.exists_finish {t : Tracker} (ht : t.Tidy) (hsorted : t.flagWriters.Pairwise (· < ·)) :
    ∃ g, t.finish = .ok g ∧ t.Closes g := by
  have hlt := ht.liveOutEdges_forward hsorted
  have hforward := ht.forward_liveOutEdges hsorted
  have hdepends : ∀ {source target : Slot},
      (t.graph.insertEdges t.liveOutEdges).Depends source target ↔ t.graph.Depends source target ∨
        source ∈ t.flagWriters.dropLast ∧ t.flagWriters.getLast? = some target := by
    intro source target
    rw [depends_insertEdges_iff fun e he => (hlt e he).2, exists_mem_liveOutEdges_iff]
  -- every source exists, which is all that inversion checks
  obtain ⟨g, hg⟩ := exists_invert_eq_ok fun source target h =>
    Nat.lt_trans (hforward source target h) h.target_lt
  refine ⟨g, ?_, ?_, inverted_of_invert hg, ?_, ?_, ?_⟩
  · rw [finish, fixLiveOut, addEdges_eq_ok fun e he => (hlt e he).2]
    exact hg
  · rw [size_of_invert hg, size_insertEdges]
  · intro source target h
    exact hforward source target ((depends_of_invert hg).mp h)
  · intro source target
    rw [depends_of_invert hg, hdepends]
  · intro slot d hd
    rw [predsOf_of_invert hg, predsOf_insertEdges fun e he => (hlt e he).2] at hd
    rcases List.mem_append.mp hd with hd | hd
    · exact Or.inl hd
    · obtain ⟨e, he, rfl⟩ := List.mem_map.mp hd
      exact Or.inr (latency_of_mem_liveOutEdges (List.mem_filter.mp he).1)

/-- **Closing a block succeeds**, and the graph has all fields of `Closes`: the tracker of a block is tidy
(`tidy_recordedBlock`) and its pending writers ascend (`flagWriters_pairwise`). -/
theorem finish_recordedBlock (latencies : LatencyTable) (block : List Instruction) :
    ∃ g, (recordedBlock latencies block).finish = .ok g ∧ (recordedBlock latencies block).Closes g :=
  (tidy_recordedBlock latencies block).1.exists_finish (flagWriters_pairwise latencies block)

/-- Closing only adds edges, so that paths of the tracker's graph stay paths. -/
theorem Closes.reaches {t : Tracker} {g : Graph} (h : t.Closes g) {a b : Slot}
    (hab : t.graph.Reaches a b) : g.Reaches a b :=
  hab.mono fun _ _ hd => h.depends_iff.mpr (Or.inl hd)

end Tracker

end DualIssue
