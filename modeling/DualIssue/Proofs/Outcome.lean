import DualIssue.Machine.Atom
import DualIssue.Proofs.CriticalPath
import DualIssue.Proofs.IssueOrder
import DualIssue.Proofs.Progress

/-!
# The outcome of scheduling

Scheduling checks its input while it lists the records and after that checks itself: for cycles, for an
empty ready list, for slots left over, for a delimiter that is not last. None of the later checks can
fail, because every edge of a recorded block leads forward.

* **`priced_recordedBlock`**: an edge costs what the latency table says for some reason.
* **`enlist_of_first_misplaced`**, **`exists_enlist_of_no_misplaced`**: what listing the records says.
* **`scheduleBlock_fails_only_on_misplaced`**: a block is refused for its first misplaced instruction, and
  a block without one is scheduled with its delimiter last, unless a cycle count does not fit.
-/

namespace DualIssue

open DualIssue.Graph DualIssue.Board

/-! ## What edges cost

An edge gets its latency when it is recorded, from the table, for the reason of its hazard. This is kept while a
block is recorded, and closing adds only plain edges. So the dearest reason bounds all edges. -/

namespace LatencyTable

/-- The cost of the most expensive reason. -/
def worst (table : LatencyTable) : Nat := latest (LatencyReason.all.map table.get)

/-- No reason costs more than the worst. The list of reasons is complete, so each cost is among those compared. -/
theorem get_le_worst (table : LatencyTable) (reason : LatencyReason) :
    table.get reason ≤ table.worst := by
  have hmem : reason ∈ LatencyReason.all := by cases reason <;> decide
  exact le_latest (List.mem_map_of_mem hmem)

/-- So many cycles are the cost of some reason. -/
def Prices (table : LatencyTable) (cycles : Nat) : Prop := ∃ reason, cycles = table.get reason

theorem Prices.le_worst {table : LatencyTable} {cycles : Nat} (h : table.Prices cycles) :
    cycles ≤ table.worst := by
  obtain ⟨reason, rfl⟩ := h
  exact table.get_le_worst reason

end LatencyTable

namespace Tracker

/-- Every edge of the tracker costs what its table says, and the table is the given one. -/
def Priced (latencies : LatencyTable) (t : Tracker) : Prop :=
  t.latencies = latencies ∧ ∀ slot, ∀ d ∈ t.graph.predsOf slot, latencies.Prices d.latency

/-- Recording an access keeps the edges priced. The new edges are among `edgesFor`, whose latencies are looked
up. -/
theorem Priced.recorded {latencies : LatencyTable} {t : Tracker} (h : Priced latencies t)
    (ht : t.Tidy) {slot : Slot} (hslot : slot + 1 = t.graph.size) (access : Access) :
    Priced latencies (t.recorded access slot) := by
  obtain ⟨hlatencies, hprices⟩ := h
  refine ⟨(latencies_recorded t access slot).trans hlatencies, ?_⟩
  intro target d hd
  unfold Tracker.recorded at hd
  split at hd
  · change d ∈ (t.graph.insertEdges (t.edgesFor access slot)).predsOf target at hd
    rw [predsOf_insertEdges fun e he => (edgesFor_forward ht hslot he).2] at hd
    rcases List.mem_append.mp hd with hold | hnew
    · exact hprices target d hold
    · obtain ⟨e, he, rfl⟩ := List.mem_map.mp hnew
      rw [← hlatencies]
      exact ⟨_, (mem_edgesFor_iff.mp (List.mem_filter.mp he).1).2.latency_eq⟩
  · exact hprices target d hd

/-- **An edge costs what the latency table says for some reason.** Induction along the recording of the block:
accesses add priced edges (`Priced.recorded`), and a new node has none. -/
theorem priced_recordedBlock (latencies : LatencyTable) (block : List Instruction) :
    Priced latencies (recordedBlock latencies block) := by
  refine recordedBlock_induction (P := fun _ t => Priced latencies t) ?_ ?_ ?_ block
  · intro _ t slot access ht hslot _ h
    exact h.recorded ht hslot access
  · refine ⟨rfl, ?_⟩
    intro slot d hd
    rw [predsOf_of_size_le (Nat.zero_le slot)] at hd
    cases hd
  · intro _ t isLoad h
    refine ⟨h.1, ?_⟩
    intro slot d hd
    change d ∈ t.graph.addNode.predsOf slot at hd
    rw [predsOf_addNode] at hd
    exact h.2 slot d hd

/-- **No edge of a closed block costs more than the most expensive reason.** It was recorded, or closing has
added it as a plain one. -/
theorem Closes.latency_le_worst {latencies : LatencyTable} {block : List Instruction} {g : Graph}
    (h : (recordedBlock latencies block).Closes g) {slot : Slot} {d : Dependency}
    (hd : d ∈ g.predsOf slot) : d.latency ≤ latencies.worst := by
  obtain ⟨htable, hprices⟩ := priced_recordedBlock latencies block
  rcases h.latency_eq hd with hold | hplain
  · exact (hprices slot d hold).le_worst
  · rw [hplain, htable]
    exact latencies.get_le_worst .plain

end Tracker

/-! ## What listing the records says

Listing goes along the block and stops at the first instruction that cannot be scheduled where it is.
`Misplaced` says which these are without going along, and the lemmas for the first instruction of a block match
it with the recursion. -/

/-- The instruction in a slot cannot be scheduled there: the model does not have it, or it is a delimiter
and another instruction follows. -/
def Misplaced (model : MachineModel) (block : List Instruction) (slot : Nat) : Prop :=
  ∃ inst ∈ block[slot]?,
    model inst.mnemonic inst.shape = none ∨ inst.isDelimiter = true ∧ slot + 1 < block.length

instance (model : MachineModel) (block : List Instruction) :
    DecidablePred (Misplaced model block) := fun slot => by
  unfold Misplaced
  infer_instance

theorem Misplaced.lt_length {model : MachineModel} {block : List Instruction} {slot : Nat}
    (h : Misplaced model block slot) : slot < block.length := by
  obtain ⟨inst, hinst, _⟩ := h
  exact (List.getElem?_eq_some_iff.mp hinst).1

/-- How a misplaced instruction is reported. -/
def misplacedError (model : MachineModel) (inst : Instruction) (slot : Nat) : ScheduleError :=
  if model inst.mnemonic inst.shape = none then .unmodeled inst.mnemonic inst.shape
  else .delimiterNotLast slot

/-- Whether a later instruction is misplaced does not depend on the first. -/
theorem misplaced_succ_iff {model : MachineModel} {inst : Instruction} {rest : List Instruction}
    {slot : Nat} : Misplaced model (inst :: rest) (slot + 1) ↔ Misplaced model rest slot := by
  unfold Misplaced
  rw [List.length_cons]
  simp only [List.getElem?_cons_succ, Nat.add_lt_add_iff_right]

/-- The first instruction is misplaced if it is not modeled, or is a delimiter with something behind it. -/
theorem misplaced_zero_iff {model : MachineModel} {inst : Instruction} {rest : List Instruction} :
    Misplaced model (inst :: rest) 0 ↔
      model inst.mnemonic inst.shape = none ∨ inst.isDelimiter = true ∧ rest ≠ [] := by
  unfold Misplaced
  simp [List.length_pos_iff]

theorem delimiter_last_of_no_misplaced {model : MachineModel} {block : List Instruction}
    (h : ∀ k, ¬ Misplaced model block k) {slot : Nat} {inst : Instruction}
    (hinst : block[slot]? = some inst) (hdelim : inst.isDelimiter = true) :
    slot + 1 = block.length := by
  have hlt : slot < block.length := (List.getElem?_eq_some_iff.mp hinst).1
  have hnot : ¬ slot + 1 < block.length := fun hmore =>
    h slot ⟨inst, hinst, Or.inr ⟨hdelim, hmore⟩⟩
  omega

theorem enlist_cons_of_misplaced {model : MachineModel} {inst : Instruction}
    {rest : List Instruction} (h : Misplaced model (inst :: rest) 0) (slot : Slot) :
    enlist model slot (inst :: rest) = .error (misplacedError model inst slot) := by
  unfold enlist MachineModel.entryOf misplacedError
  cases hentry : model inst.mnemonic inst.shape with
  | none => rfl
  | some entry =>
    rcases misplaced_zero_iff.mp h with hnone | ⟨hdelim, hrest⟩
    · rw [hentry] at hnone
      cases hnone
    · have hcheck : (inst.isDelimiter && !rest.isEmpty) = true := by simp [hdelim, hrest]
      show (if (inst.isDelimiter && !rest.isEmpty) = true then _ else _) = _
      rw [if_pos hcheck]
      rfl

/-- An instruction that is not misplaced leaves the outcome to the rest of the block. -/
theorem enlist_cons_of_not_misplaced {model : MachineModel} {inst : Instruction}
    {rest : List Instruction} (h : ¬ Misplaced model (inst :: rest) 0) (slot : Slot) :
    ∃ record, enlist model slot (inst :: rest) =
      (enlist model (slot + 1) rest).map (record :: ·) := by
  rw [misplaced_zero_iff] at h
  obtain ⟨hmodeled, hlast⟩ := not_or.mp h
  obtain ⟨entry, hentry⟩ := Option.ne_none_iff_exists'.mp hmodeled
  have hcheck : ¬ (inst.isDelimiter && !rest.isEmpty) = true := by
    intro hboth
    have hboth : inst.isDelimiter = true ∧ rest ≠ [] := by simpa using hboth
    exact hlast hboth
  refine ⟨Record.ofEntry slot inst entry, ?_⟩
  rw [enlist, MachineModel.entryOf, hentry]
  show (if (inst.isDelimiter && !rest.isEmpty) = true then _ else _) = _
  rw [if_neg hcheck]
  cases enlist model (slot + 1) rest <;> rfl

/-- **The first misplaced instruction is reported.** Induction on the block; what comes before it is not
misplaced and passes. -/
theorem enlist_of_first_misplaced {model : MachineModel} {block : List Instruction} {k : Nat}
    {inst : Instruction} (hinst : block[k]? = some inst) (hk : Misplaced model block k)
    (hfirst : ∀ i, i < k → ¬ Misplaced model block i) (slot : Nat) :
    enlist model slot block = .error (misplacedError model inst (slot + k)) := by
  induction block generalizing k slot with
  | nil => cases hinst
  | cons head rest ih =>
    cases k with
    | zero =>
      cases hinst
      exact enlist_cons_of_misplaced hk slot
    | succ k =>
      obtain ⟨record, hcons⟩ := enlist_cons_of_not_misplaced (hfirst 0 (Nat.succ_pos k)) slot
      have hrest := ih (k := k) hinst (misplaced_succ_iff.mp hk)
        (fun i hi hmis => hfirst (i + 1) (Nat.succ_lt_succ hi) (misplaced_succ_iff.mpr hmis))
        (slot + 1)
      rw [hcons, hrest, Nat.add_assoc, Nat.add_comm 1 k]
      rfl

/-- **A block without misplaced instructions is listed.** Induction on the block, for any slot that it starts
with. -/
theorem exists_enlist_of_no_misplaced {model : MachineModel} {block : List Instruction}
    (h : ∀ k, ¬ Misplaced model block k) (slot : Slot) :
    ∃ records, enlist model slot block = .ok records := by
  induction block generalizing slot with
  | nil => exact ⟨[], rfl⟩
  | cons head rest ih =>
    obtain ⟨record, hcons⟩ := enlist_cons_of_not_misplaced (h 0) slot
    obtain ⟨records, hrest⟩ := ih (fun k hk => h (k + 1) (misplaced_succ_iff.mpr hk)) (slot + 1)
    rw [hcons, hrest]
    exact ⟨record :: records, rfl⟩

/-- No instruction of a block that has been listed is misplaced. -/
theorem no_misplaced_of_enlist {model : MachineModel} {slot : Slot} {block : List Instruction}
    {records : List Record} (h : enlist model slot block = .ok records) (k : Nat) :
    ¬ Misplaced model block k := by
  induction block generalizing slot records k with
  | nil => exact fun hk => absurd hk.lt_length (Nat.not_lt_zero k)
  | cons head rest ih =>
    by_cases hhead : Misplaced model (head :: rest) 0
    · rw [enlist_cons_of_misplaced hhead slot] at h
      cases h
    · cases k with
      | zero => exact hhead
      | succ k =>
        obtain ⟨record, hcons⟩ := enlist_cons_of_not_misplaced hhead slot
        rw [hcons] at h
        obtain ⟨tail, htail, _⟩ := Except.map_eq_ok_iff.mp h
        rw [misplaced_succ_iff]
        exact ih htail k

theorem not_misplaced_of_scheduleBlock {model : MachineModel} {options : Options}
    {block : List Instruction} {s : BlockSchedule} (henabled : options.enabled = true)
    (h : scheduleBlock model options block = .ok s) (k : Nat) : ¬ Misplaced model block k := by
  obtain ⟨records, _, hrecords, _⟩ := scheduleBlock_eq_ok henabled h
  exact no_misplaced_of_enlist hrecords k

/-! ## Scheduling over a forward graph

Two of the steps can overflow, the measuring of paths and the issue. For both, an overflow means that all costs
that cover the delays are too large. The records that are issued have paths written in, which neither latencies
nor instructions depend on. -/

theorem map_range_latencyAt (records : Array Record) :
    (List.range records.size).map (latencyAt records) = records.toList.map (·.latency) := by
  refine List.ext_getElem (by simp) ?_
  intro i hi hi'
  have hlt : i < records.size := by simpa using hi
  simp [latencyAt, hlt]

theorem getD_latencies (records : Array Record) (slot : Slot) :
    (records.toList.map (·.latency)).getD slot 0 = latencyAt records slot := by
  rw [latencyAt, List.getD_eq_getElem?_getD, List.getElem?_map, Array.getElem?_toList]

namespace BlockSchedule

theorem latencyAt_withPaths (records : Array Record) (paths : Array Nat) :
    latencyAt (withPaths records paths) = latencyAt records := by
  funext slot
  unfold latencyAt
  rw [map_getElem?_withPaths (·.latency) (fun _ _ => rfl)]

/-- **Over a forward graph scheduling ends with a schedule**, whose delimiter is last, unless a cycle count does
not fit; then no costs that cover the delays fit either. This is `longestPaths_completes` followed by
`listSchedule_completes`, and either may overflow. -/
theorem ofGraph_completes {g : Graph} {records : Array Record} (hg : g.Inverted) (hf : g.Forward)
    (hsize : records.size = g.size) (hpos : Positioned records)
    (hdelim : ∀ (s : Nat) inst, records[s]?.map (·.inst) = some inst → inst.isDelimiter = true →
      s + 1 = g.size) :
    (∃ schedule, ofGraph g records = .ok schedule ∧
      ∀ (s : Nat) inst, records[s]?.map (·.inst) = some inst → inst.isDelimiter = true →
        schedule.order.getLast? = some s) ∨
    (ofGraph g records = .error (.fault .overflow) ∧
      ∀ cost, CoversDelays g (latencyAt records) cost →
        maxCycle < totalCost cost (List.range g.size)) := by
  have hlength : (records.toList.map (·.latency)).length = g.size := by simpa using hsize
  have hlatency : (fun s => (records.toList.map (·.latency)).getD s 0) = latencyAt records :=
    funext (getD_latencies records)
  rcases longestPaths_completes hg hf hlength with ⟨paths, hpaths, _⟩ | ⟨hfault, hbudget⟩
  · -- the paths change neither the instructions nor the latencies that the list scheduler sees
    have hinst : ∀ (s : Nat), (withPaths records paths)[s]?.map (·.inst) = records[s]?.map (·.inst) :=
      map_getElem?_withPaths (·.inst) (fun _ _ => rfl) records paths
    have hlist := listSchedule_completes hg hf ((size_withPaths records paths).trans hsize)
      (positioned_withPaths hpos paths) fun s r hr hr' =>
        hdelim s r.inst (by rw [← hinst, hr, Option.map_some]) hr'
    rw [latencyAt_withPaths] at hlist
    rcases hlist with ⟨final, order, hok, hlast⟩ | ⟨hfault, hbudget⟩
    · refine Or.inl ⟨{ order, records := final, graph := g }, ofGraph_of_paths hpaths hok, ?_⟩
      intro s inst hs hs'
      rw [← hinst] at hs
      obtain ⟨r, hr, rfl⟩ := Option.map_eq_some_iff.mp hs
      exact hlast s r hr hs'
    · have hresult : listSchedule g (withPaths records paths) =
          ((listSchedule g (withPaths records paths)).1, .error (.fault .overflow)) :=
        Prod.ext rfl hfault
      exact Or.inr ⟨ofGraph_of_paths hpaths hresult, hbudget⟩
  · rw [hlatency] at hbudget
    refine Or.inr ⟨?_, hbudget⟩
    unfold ofGraph
    rw [hfault]
    rfl

end BlockSchedule

/-! ## Scheduling a block

The edges of a closed block lead forward, so that the last section applies. Of all costs that cover the delays
the budget is one: it charges each slot with its latency and the dearest edge. -/

/-- Cycles that are enough for a block in any order: for each instruction its latency, or one cycle, and
the most that an edge can add. -/
def cycleBudget (model : MachineModel) (options : Options) (block : List Instruction) : Nat :=
  (block.map fun inst => max (model.latencyOf inst) 1 + options.latencies.worst).sum

section Enlisted

variable {model : MachineModel} {block : List Instruction} {records : List Record}
  (hrecords : enlist model 0 block = .ok records)
include hrecords

theorem map_inst_of_enlist (slot : Nat) : records.toArray[slot]?.map (·.inst) = block[slot]? := by
  rw [List.getElem?_toArray, ← List.getElem?_map, (enlist_eq_ok hrecords).1]

/-- What all slots are charged with is the budget of the block. -/
theorem totalCost_of_enlist (options : Options) :
    totalCost (fun s => max (latencyAt records.toArray s) 1 + options.latencies.worst)
      (List.range records.toArray.size) = cycleBudget model options block := by
  have hcost : (fun s => max (latencyAt records.toArray s) 1 + options.latencies.worst) =
      (fun latency => max latency 1 + options.latencies.worst) ∘ latencyAt records.toArray := rfl
  unfold totalCost cycleBudget
  rw [hcost, ← List.map_map, map_range_latencyAt]
  show ((records.map (·.latency)).map _).sum = _
  rw [(enlist_eq_ok hrecords).2.2, List.map_map]
  rfl

theorem getLast?_unscheduled :
    (BlockSchedule.unscheduled records.toArray).order.getLast? = (List.range block.length).getLast? := by
  show (records.map (·.slot)).getLast? = _
  rw [(enlist_eq_ok hrecords).2.1, List.range_eq_range']

end Enlisted

/-- Latency and dearest edge cover the delay of any edge, and at least one cycle is charged. -/
theorem coversDelays_of_closes {latencies : LatencyTable} {block : List Instruction} {g : Graph}
    (hcloses : (Tracker.recordedBlock latencies block).Closes g) (latency : Slot → Nat) :
    CoversDelays g latency (fun s => max (latency s) 1 + latencies.worst) where
  pos := fun s => by
    show 0 < max (latency s) 1 + latencies.worst
    omega
  latency_le := fun s => by
    show latency s ≤ max (latency s) 1 + latencies.worst
    omega
  delay_le := fun hd => Nat.add_le_add_left (hcloses.latency_le_worst hd) _

/-- **What is not misplaced is scheduled**, with the delimiter last, or overflows and then exceeds its budget.
With reordering this is `ofGraph_completes` over the closed graph, without it the records are only listed. -/
theorem scheduleBlock_completes {model : MachineModel} {options : Options}
    {block : List Instruction} (hplaced : ∀ k, ¬ Misplaced model block k) :
    (∃ s, scheduleBlock model options block = .ok s ∧
      ∀ slot inst, block[slot]? = some inst → inst.isDelimiter = true →
        s.order.getLast? = some slot) ∨
    (scheduleBlock model options block = .error (.fault .overflow) ∧ options.enabled = true ∧
      maxCycle < cycleBudget model options block) := by
  obtain ⟨records, hrecords⟩ := exists_enlist_of_no_misplaced hplaced 0
  by_cases henabled : options.enabled = true
  · obtain ⟨g, hfinish, hcloses⟩ := Tracker.finish_recordedBlock options.latencies block
    have hsize : records.toArray.size = g.size := size_eq_of_enlist hrecords hcloses
    have hlength : block.length = g.size := by
      rw [← hsize, List.size_toArray, length_of_enlist hrecords]
    have hinst := map_inst_of_enlist hrecords
    rw [scheduleBlock_of_enlist henabled hrecords hfinish]
    have houtcome := BlockSchedule.ofGraph_completes hcloses.inverted hcloses.forward hsize
      (positioned_of_enlist hrecords) fun slot inst hslot hdelim =>
        (delimiter_last_of_no_misplaced hplaced ((hinst slot).symm.trans hslot) hdelim).trans hlength
    rcases houtcome with ⟨s, hok, hlast⟩ | ⟨hfault, hbudget⟩
    · exact Or.inl ⟨s, hok, fun slot inst hslot => hlast slot inst ((hinst slot).trans hslot)⟩
    · -- of all costs that cover the delays, those of the budget
      have hover := hbudget _ (coversDelays_of_closes hcloses (latencyAt records.toArray))
      rw [← hsize, totalCost_of_enlist hrecords] at hover
      exact Or.inr ⟨hfault, henabled, hover⟩
  · refine Or.inl ⟨BlockSchedule.unscheduled records.toArray, ?_, ?_⟩
    · unfold scheduleBlock
      rw [hrecords]
      show (if options.enabled = true then _ else _) = _
      rw [if_neg henabled]
      rfl
    · intro slot inst hslot hdelim
      have hlast := delimiter_last_of_no_misplaced hplaced hslot hdelim
      rw [getLast?_unscheduled hrecords, ← hlast, List.range_succ, List.getLast?_concat]

/-- **Scheduling fails on misplaced instructions only.** The first instruction that the model does not
have, or that is a delimiter before the end, is the one reported. Without such an instruction there is a
schedule, and a delimiter at the end of the block is last in it; the one thing that can prevent it is a
cycle count of more than 32 bits, for which the block must exceed its budget. -/
theorem scheduleBlock_fails_only_on_misplaced (model : MachineModel) (options : Options)
    (block : List Instruction) :
    (∀ k inst, block[k]? = some inst → Misplaced model block k →
      (∀ i, i < k → ¬ Misplaced model block i) →
        scheduleBlock model options block = .error (misplacedError model inst k)) ∧
    ((∀ k, ¬ Misplaced model block k) →
      (∃ s, scheduleBlock model options block = .ok s ∧
        ∀ inst, block.getLast? = some inst → inst.isDelimiter = true →
          s.order.getLast? = some (block.length - 1)) ∨
      (scheduleBlock model options block = .error (.fault .overflow) ∧ options.enabled = true ∧
        maxCycle < cycleBudget model options block)) := by
  constructor
  · intro k inst hinst hk hfirst
    -- listing comes first, so its error is the one reported
    have herror := enlist_of_first_misplaced hinst hk hfirst 0
    rw [Nat.zero_add] at herror
    unfold scheduleBlock
    rw [herror]
    rfl
  · intro hplaced
    refine (scheduleBlock_completes hplaced).imp_left ?_
    rintro ⟨s, hok, hlast⟩
    refine ⟨s, hok, fun inst hinst hdelim => hlast _ inst ?_ hdelim⟩
    rw [← List.getLast?_eq_getElem?]
    exact hinst

/-- A return before the end of a block, and after it an addition of nothing. -/
def earlyReturn : List Instruction :=
  [{ mnemonic := .mov, operands := .immToReg 1 .edx },
   { mnemonic := .ret },
   { mnemonic := .add }]

/-- Of two misplaced instructions the return is reported, and without the other the block is
scheduled. -/
theorem scheduleBlock_earlyReturn :
    (Misplaced Atom.model earlyReturn 2 ∧ Misplaced Atom.model earlyReturn 1 ∧
      (∀ i, i < 1 → ¬ Misplaced Atom.model earlyReturn i) ∧
      scheduleBlock Atom.model {} earlyReturn = .error (.delimiterNotLast 1)) ∧
    (∀ k, ¬ Misplaced Atom.model (earlyReturn.take 2) k) ∧
      ∃ s, scheduleBlock Atom.model {} (earlyReturn.take 2) = .ok s ∧
        s.order.getLast? = some 1 := by
  have hmisplaced : Misplaced Atom.model earlyReturn 1 := by decide
  have hfirst : ∀ i, i < 1 → ¬ Misplaced Atom.model earlyReturn i := by decide
  have hplaced : ∀ k, ¬ Misplaced Atom.model (earlyReturn.take 2) k := by
    have hbounded : ∀ k, k < 2 → ¬ Misplaced Atom.model (earlyReturn.take 2) k := by decide
    exact fun k hk => hbounded k hk.lt_length hk
  have hbudget : ¬ maxCycle < cycleBudget Atom.model {} (earlyReturn.take 2) := by decide
  refine ⟨⟨by decide, hmisplaced, hfirst, ?_⟩, hplaced, ?_⟩
  · exact (scheduleBlock_fails_only_on_misplaced Atom.model {} earlyReturn).1 1 { mnemonic := .ret } rfl
      hmisplaced hfirst
  · rcases (scheduleBlock_fails_only_on_misplaced Atom.model {} (earlyReturn.take 2)).2 hplaced with
      ⟨s, hok, hlast⟩ | ⟨_, _, hover⟩
    · exact ⟨s, hok, hlast { mnemonic := .ret } rfl rfl⟩
    · exact absurd hover hbudget

end DualIssue
