import DualIssue.Proofs.ConflictOrder
import DualIssue.Proofs.EdgeCauses
import DualIssue.Proofs.TimelyReads

/-!
# Reads wait for what they read

An instruction that reads a register or memory gets an edge from the instruction that wrote it last, and the edge
costs what the reason of the read says, or what a load from memory costs if that is more.

* **`producer_eq_of_writes`**: the tracker knows the last writer of every resource.
* **`exists_raw_of_producer`**: a read that is in time gets its edge while the instruction is recorded.
* **`mem_edges_recordedBlock_append`**: the edge stays, whatever is recorded later.
* **`dataReads_wait`**: hence every read but the late ones waits for the last write.
-/

namespace DualIssue

open DualIssue.Graph

namespace Tracker

/-! ## The last writer

From the two halves of what is known about a recorded block: a resource that is written has a producer
(`connects_recordedBlock`), and a producer is the last that wrote (`caused_recordedBlock`). -/

theorem writes_append_iff {front back : List Instruction} {k : Slot} (hk : k < front.length)
    {resource : Resource} :
    Writes (accessLog (front ++ back)) k resource ↔ Writes (accessLog front) k resource := by
  unfold Writes Touches
  simp only [mem_accessLog_iff, List.getElem?_append_left hk]

/-- **The tracker knows the last writer.** Some slot is the producer, and both it and the last writer come last
among those that write. -/
theorem producer_eq_of_writes (latencies : LatencyTable) {block : List Instruction} {resource : Resource}
    (hflags : resource ≠ .flags) {i : Slot} (hwrites : Writes (accessLog block) i resource)
    (hlast : ∀ k, Writes (accessLog block) k resource → k ≤ i) :
    (recordedBlock latencies block).producer resource = some i := by
  obtain ⟨a, ha, rfl, hrole⟩ := hwrites
  obtain ⟨p, hp, _⟩ := (connects_recordedBlock latencies block).written ha
    ⟨tracked_of_mem_accessLog ha, hflags⟩ hrole
  -- there is a producer, and it is the last that has written
  have hcurrent := (caused_recordedBlock latencies block).1
  obtain ⟨hpwrites, hplast⟩ := hcurrent.writer ((lastWriter_of_ne hflags).trans hp)
  rw [hp, Nat.le_antisymm (hlast p hpwrites) (hplast i ⟨a, ha, rfl, hrole⟩)]

/-! ## What recording leaves alone

Between two turns of an instruction's accesses neither the loads nor the latencies change, and a producer
changes only by a write. All by induction on the accesses, from the statement for one of them. -/

section Frame

variable (t : Tracker) (accesses : List Access) (slot : Slot)

theorem loads_note (access : Access) : (t.note access slot).loads = t.loads := by
  unfold note
  split
  · unfold noteFlags
    extract_lets writers
    split <;> rfl
  · unfold noteAccess
    split <;> rfl

theorem loads_recorded (access : Access) : (t.recorded access slot).loads = t.loads := by
  unfold recorded
  split
  · exact loads_note t slot access
  · rfl

theorem loads_recordedAll : (t.recordedAll accesses slot).loads = t.loads := by
  induction accesses generalizing t with
  | nil => rfl
  | cons access rest ih => exact (ih (t.recorded access slot)).trans (loads_recorded t slot access)

theorem latencies_recordedAll : (t.recordedAll accesses slot).latencies = t.latencies := by
  induction accesses generalizing t with
  | nil => rfl
  | cons access rest ih => exact (ih (t.recorded access slot)).trans (latencies_recorded t access slot)

theorem producer_recordedAll {resource : Resource} (h : NeverWrites resource accesses) :
    (t.recordedAll accesses slot).producer resource = t.producer resource := by
  induction accesses generalizing t with
  | nil => rfl
  | cons access rest ih =>
    obtain ⟨haccess, hrest⟩ := List.forall_mem_cons.mp h
    refine (ih (t.recorded access slot) hrest).trans ?_
    rw [producer_recorded, if_neg]
    rintro ⟨hres, _, _, hwrites⟩
    rw [haccess hres] at hwrites
    cases hwrites

end Frame

/-- Loads from memory are listed as such. Induction on the block from its end, where a new instruction is listed
if it is a load. -/
theorem mem_loads_recordedBlock (latencies : LatencyTable) {block : List Instruction} {i : Nat}
    {inst : Instruction} (hinst : block[i]? = some inst) (hload : inst.isMemoryLoad = true) :
    i ∈ (recordedBlock latencies block).loads := by
  induction block using List.reverseRecOn with
  | nil => cases hinst
  | append_singleton block last ih =>
    have hloads : (recordedBlock latencies (block ++ [last])).loads =
        if last.isMemoryLoad then (recordedBlock latencies block).loads ++ [block.length]
        else (recordedBlock latencies block).loads := by
      rw [recordedBlock, List.foldl_append]
      show (recordedInstruction (recordedBlock latencies block) last).loads = _
      rw [recordedInstruction, loads_recordedAll, addNode, (tidy_recordedBlock latencies block).2]
    rw [hloads]
    rcases Nat.lt_or_ge i block.length with hlt | hge
    · rw [List.getElem?_append_left hlt] at hinst
      split
      · exact List.mem_append_left _ (ih hinst)
      · exact ih hinst
    · -- the new slot
      have hlt := (List.getElem?_eq_some_iff.mp hinst).1
      rw [List.length_append, List.length_singleton] at hlt
      obtain rfl : i = block.length := by omega
      rw [List.getElem?_concat_length] at hinst
      cases hinst
      rw [if_pos hload]
      exact List.mem_append_right _ List.mem_cons_self

/-! ## The edge of a read

An instruction records its accesses one after the other, and a write of its own may come before a read.
`timely_accesses` says that for a read that is not late the first read for the same reason comes before any own
write. At its turn the producer is still the one from before the instruction, so this read gets the edge. -/

/-- A read costs what its reason says, and no less than a load if it reads what was loaded. The label takes the
dearer of the two. -/
theorem readLabel_covers (t : Tracker) (producer : Slot) (reason : LatencyReason) :
    (t.readLabel producer reason).hazard = .raw ∧
      t.latencies.get reason ≤ (t.readLabel producer reason).latency ∧
      (producer ∈ t.loads → t.latencies.get .memoryLoad ≤ (t.readLabel producer reason).latency) := by
  unfold readLabel
  split
  · rename_i hdearer
    exact ⟨rfl, Nat.le_of_lt hdearer.2, fun _ => Nat.le_refl _⟩
  · rename_i hcheaper
    exact ⟨rfl, Nat.le_refl _, fun hload => Nat.le_of_not_lt fun hlt => hcheaper ⟨hload, hlt⟩⟩

/-- **A read that is in time gets its edge.** The accesses in front of it write nothing it reads, so the tables
at its turn are those of before (`producer_recordedAll`). What it asks for then stays in the graph
(`Asks.mem_edges_recordedAll`). -/
theorem exists_raw_of_producer {t : Tracker} (ht : t.Tidy) {inst : Instruction} {access : Access}
    (hmem : access ∈ inst.accesses) (hflags : access.resource ≠ .flags)
    (hreads : access.role.reads = true) (hlate : ¬ inst.ReadsLate access) {i : Slot}
    (hproducer : t.producer access.resource = some i) :
    ∃ e ∈ (t.recordedInstruction inst).graph.edges,
      e.source = i ∧ e.target = t.graph.size ∧ e.hazard = .raw ∧
      t.latencies.get access.reason ≤ e.latency ∧
      (i ∈ t.loads → t.latencies.get .memoryLoad ≤ e.latency) := by
  obtain ⟨front, first, back, heq, hfront, hres, hreason, hfirst⟩ :=
    (timely_accesses inst hflags hlate).exists_first hmem rfl rfl hreads
  -- the tables when the first read for the reason has its turn
  have hproducer' : ((t.addNode inst.isMemoryLoad).recordedAll front t.graph.size).producer
      first.resource = some i := by
    rw [producer_recordedAll _ _ _ (hres ▸ hfront), hres]
    exact hproducer
  have hlatencies := latencies_recordedAll (t.addNode inst.isMemoryLoad) front t.graph.size
  have hloads := loads_recordedAll (t.addNode inst.isMemoryLoad) front t.graph.size
  have hold : i ∈ t.loads → i ∈ (t.addNode inst.isMemoryLoad).loads := by
    intro h
    unfold addNode
    split
    · exact List.mem_append_left _ h
    · exact h
  -- the edge is asked for at this turn, and its label covers both costs
  have hasks : Asks _ first t.graph.size _ i t.graph.size := .read (hres ▸ hflags) hfirst hproducer'
  have htracked : first.resource.isTracked = true := by
    rw [hres]
    exact allTracked_accesses inst access hmem
  have hedge := hasks.mem_edges_recordedAll (ht.addNode inst.isMemoryLoad) (size_graph_addNode _ _).symm
    htracked (Nat.ne_of_lt (ht.producer_lt hproducer))
    (back ++ if inst.isVolatile then [volatileAccess] else [])
  obtain ⟨hhazard, hcost, hload⟩ :=
    readLabel_covers ((t.addNode inst.isMemoryLoad).recordedAll front t.graph.size) i first.reason
  rw [hlatencies] at hcost hload
  rw [hloads] at hload
  rw [recordedInstruction, recordedAccesses, heq, List.append_assoc, ← hreason]
  exact ⟨_, hedge, rfl, rfl, hhazard, hcost, fun h => hload (hold h)⟩

/-- Edges stay while the block grows. Induction on what follows, from its end. -/
theorem mem_edges_recordedBlock_append (latencies : LatencyTable) (front back : List Instruction) {e : Edge}
    (he : e ∈ (recordedBlock latencies front).graph.edges) :
    e ∈ (recordedBlock latencies (front ++ back)).graph.edges := by
  induction back using List.reverseRecOn with
  | nil =>
    rw [List.append_nil]
    exact he
  | append_singleton back inst ih =>
    obtain ⟨htidy, _⟩ := tidy_recordedBlock latencies (front ++ back)
    rw [← List.append_assoc, recordedBlock, List.foldl_append]
    exact mem_edges_recordedAll (htidy.addNode inst.isMemoryLoad) (size_graph_addNode _ _).symm
      (mem_edges_addNode.mpr ih) (recordedAccesses inst)

/-- **Reads wait for what they read.** Recording a block gives, for each read of anything but the flags that is
not late, an edge from the last instruction before that writes the resource. It costs at least what the table says
for the reason of the read, and for a load from memory if the writer is one. -/
theorem dataReads_wait (latencies : LatencyTable) (block : List Instruction) :
    ∃ t, ofBlock latencies block = .ok t ∧
      ∀ (i j : Nat) (inst : Instruction) (access : Access), block[j]? = some inst →
        access ∈ inst.accesses → access.resource ≠ .flags → access.role.reads = true →
        ¬ inst.ReadsLate access → i < j → Writes (accessLog block) i access.resource →
        Unwritten (accessLog block) access.resource i j →
        ∃ e ∈ t.graph.edges, e.source = i ∧ e.target = j ∧ e.hazard = .raw ∧
          latencies.get access.reason ≤ e.latency ∧
          ∀ writer, block[i]? = some writer → writer.isMemoryLoad = true →
            latencies.get .memoryLoad ≤ e.latency := by
  refine ⟨_, ofBlock_eq_ok latencies block, ?_⟩
  intro i j inst access hinst hmem hflags hreads hlate hlt hwrites hunwritten
  -- the block up to the reader
  obtain ⟨front, back, rfl, rfl⟩ : ∃ front back, block = front ++ inst :: back ∧ front.length = j := by
    obtain ⟨hj, rfl⟩ := List.getElem?_eq_some_iff.mp hinst
    refine ⟨block.take j, block.drop (j + 1), ?_, List.length_take_of_le (Nat.le_of_lt hj)⟩
    rw [← List.drop_eq_getElem_cons, List.take_append_drop]
  obtain ⟨htidy, hsize⟩ := tidy_recordedBlock latencies front
  have hlatencies := (caused_recordedBlock latencies front).2.1
  -- the writer is the last one in front of the reader, so it is the producer there
  have hproducer : (recordedBlock latencies front).producer access.resource = some i := by
    refine producer_eq_of_writes latencies hflags ((writes_append_iff hlt).mp hwrites) fun k hk => ?_
    obtain ⟨a, ha, htouch⟩ := hk
    obtain ⟨_, hk, _⟩ := mem_accessLog_iff.mp ha
    have hklt : k < front.length := (List.getElem?_eq_some_iff.mp hk).1
    refine Nat.le_of_not_lt fun hik => hunwritten k hik hklt ?_
    exact (writes_append_iff hklt).mpr ⟨a, ha, htouch⟩
  -- the edge is there when the reader has been recorded, and it stays
  obtain ⟨e, he, hsource, htarget, hhazard, hcost, hload⟩ :=
    exists_raw_of_producer htidy hmem hflags hreads hlate hproducer
  rw [hlatencies] at hcost hload
  refine ⟨e, ?_, hsource, htarget.trans hsize, hhazard, hcost, fun writer hwriter hmemory => ?_⟩
  · rw [List.append_cons]
    refine mem_edges_recordedBlock_append latencies _ back ?_
    rw [recordedBlock, List.foldl_append]
    exact he
  · rw [List.getElem?_append_left hlt] at hwriter
    exact hload (mem_loads_recordedBlock latencies hwriter hmemory)

/-- A load, and an exchange with the memory that the loaded value points to. -/
def loadThenExchange : List Instruction :=
  [{ mnemonic := .mov, operands := .memToReg { base := some .edi } .eax },
   { mnemonic := .xchg, operands := .regToMem .ecx { base := some .eax } }]

/-- The exchange computes its address from another register than it exchanges, so it waits for the load. -/
theorem dataReads_wait_on_loadThenExchange :
    ∃ t, ofBlock { memoryLoad := 5 } loadThenExchange = .ok t ∧
      ∃ e ∈ t.graph.edges, e.source = 0 ∧ e.target = 1 ∧ e.hazard = .raw ∧ 3 ≤ e.latency ∧ 5 ≤ e.latency := by
  obtain ⟨t, ht, hwait⟩ := dataReads_wait { memoryLoad := 5 } loadThenExchange
  have hlate : ¬ Instruction.ReadsLate
      { mnemonic := .xchg, operands := .regToMem .ecx { base := some .eax } } (.address .eax) := by
    rintro ⟨_, ⟨_, hres⟩ | ⟨hm, _⟩⟩
    · cases hres
    · cases hm
  obtain ⟨e, he, hsource, htarget, hraw, hcost, hload⟩ := hwait 0 1 _ (.address .eax) rfl (by decide) nofun
    rfl hlate (by decide) ⟨.reg .eax .define, by decide, rfl, rfl⟩
    (fun k hfirst hsecond => absurd hsecond (Nat.not_lt.mpr hfirst))
  exact ⟨t, ht, e, he, hsource, htarget, hraw, hcost, hload _ rfl rfl⟩

/-- The second instruction of a block reads what the first has written, but no edge between them covers the cost
of the read. -/
def WaitsTooShort (block : List Instruction) (access : Access) : Prop :=
  (∃ inst, block[1]? = some inst ∧ access ∈ inst.accesses ∧ access.role.reads = true) ∧
    Writes (accessLog block) 0 access.resource ∧
    ∃ t, ofBlock {} block = .ok t ∧ ∀ e ∈ t.graph.edges, e.source = 0 → e.target = 1 → e.hazard = .raw →
      e.latency < LatencyTable.get {} access.reason

/-- **Late reads wait too short**: an exchange with the memory that its own register points to, a comparing
exchange through the accumulator, and the second of two loads onto the register stack, which has no such edge at
all. -/
theorem lateReads_waitTooShort :
    WaitsTooShort [{ mnemonic := .mov, operands := .immToReg 1 .eax },
      { mnemonic := .xchg, operands := .regToMem .eax { base := some .eax } }] (.address .eax) ∧
    WaitsTooShort [{ mnemonic := .mov, operands := .immToReg 1 .eax },
      { mnemonic := .cmpxchg, operands := .regToMem .ecx { base := some .eax } }] (.address .eax) ∧
    WaitsTooShort [{ mnemonic := .fld, operands := .memToReg { base := some .edi } .st0 },
      { mnemonic := .fld, operands := .memToReg { base := some .edi } .st0 }] (.plain .fpStack .useDefine) := by
  refine ⟨⟨⟨_, rfl, ?_, rfl⟩, ⟨.reg .eax .define, ?_, rfl, rfl⟩, _, rfl, ?_⟩,
    ⟨⟨_, rfl, ?_, rfl⟩, ⟨.reg .eax .define, ?_, rfl, rfl⟩, _, rfl, ?_⟩,
    ⟨_, rfl, ?_, rfl⟩, ⟨.reg .st0 .define, ?_, rfl, rfl⟩, _, rfl, ?_⟩ <;> decide

end Tracker

end DualIssue
