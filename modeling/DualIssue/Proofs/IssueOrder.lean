import DualIssue.Proofs.AccessLog
import DualIssue.Proofs.ReadyTimes
import DualIssue.Schedule
import Mathlib.Data.List.TakeWhile

/-!
# The order of a scheduled block

What a successful schedule says about the order of issue: every instruction is there once, and no slot
reaches one that has issued before it in the dependence graph. The two theories of reordering, of data
and of flags, need no more than this.

* **`before`**: the slots that issue before a slot.
* **`enlist_eq_ok`**: the records of a block stand for its instructions, in program order.
* **`scheduled_of_scheduleBlock`**: a schedule is `Scheduled`.
* **`issuesBefore_of_reaches`**: a path of edges leads to a strictly later cycle.
-/

namespace DualIssue

open DualIssue.Graph DualIssue.Board

/-! ## Before and after

An order without repetition is cut at a slot into what is before it and what is after it. The lemmas say how
`before` goes along with appending, with cutting twice and with program order. The section ends with the two
facts about issue: a path leads to a strictly later cycle, and so no slot reaches one that has issued before it. -/

/-- The slots that an order has before a slot. -/
def before (order : List Slot) (slot : Slot) : List Slot := order.takeWhile (· ≠ slot)

theorem before_cons_of_ne {head slot : Slot} (h : head ≠ slot) (rest : List Slot) :
    before (head :: rest) slot = head :: before rest slot :=
  List.takeWhile_cons_of_pos (by simpa using h)

theorem before_append_of_not_mem {front : List Slot} {slot : Slot} (h : slot ∉ front)
    (rest : List Slot) : before (front ++ rest) slot = front ++ before rest slot := by
  refine List.takeWhile_append_of_pos ?_
  intro s hs
  simpa using fun heq : s = slot => h (heq ▸ hs)

theorem before_append_cons {front rest : List Slot} {slot : Slot} (h : slot ∉ front) :
    before (front ++ slot :: rest) slot = front := by
  rw [before_append_of_not_mem h, before, List.takeWhile_cons_of_neg (by simp), List.append_nil]

theorem before_append_of_mem {front : List Slot} {slot : Slot} (h : slot ∈ front) (rest : List Slot) :
    before (front ++ rest) slot = before front slot := by
  obtain ⟨front, back, rfl, hfront⟩ := List.eq_append_cons_of_mem h
  rw [List.append_assoc, List.cons_append, before_append_cons hfront, before_append_cons hfront]

/-- An order splits at each of its slots into what is before it and what is after it. -/
theorem exists_eq_before_append {order : List Slot} (hnodup : order.Nodup) {slot : Slot}
    (h : slot ∈ order) :
    ∃ rest, order = before order slot ++ slot :: rest ∧ slot ∉ before order slot ∧ slot ∉ rest := by
  obtain ⟨front, rest, rfl⟩ := List.append_of_mem h
  obtain ⟨_, hrest, hdisjoint⟩ := List.nodup_append.mp hnodup
  have hfront : slot ∉ front := fun hs => hdisjoint slot hs slot List.mem_cons_self rfl
  rw [before_append_cons hfront]
  exact ⟨rest, rfl, hfront, (List.nodup_cons.mp hrest).1⟩

theorem mem_of_mem_before {order : List Slot} {a b : Slot} (h : a ∈ before order b) : a ∈ order :=
  (List.takeWhile_sublist _).mem h

theorem not_mem_before_self {order : List Slot} {slot : Slot} : slot ∉ before order slot := by
  intro h
  simpa using List.mem_takeWhile_imp h

/-- What is before a slot that is before another one: the order may be cut at either first. -/
theorem before_before {order : List Slot} {a b : Slot} (h : a ∈ before order b) :
    before (before order b) a = before order a := by
  have horder : before order b ++ order.dropWhile (· ≠ b) = order := List.takeWhile_append_dropWhile
  conv => rhs; rw [← horder]
  exact (before_append_of_mem h _).symm

theorem not_mem_before_of_mem_before {order : List Slot} {a b : Slot} (h : a ∈ before order b) :
    b ∉ before order a := by
  intro hb
  rw [← before_before hb] at h
  exact not_mem_before_self (mem_of_mem_before h)

theorem before_range {n slot : Nat} (h : slot < n) : before (List.range n) slot = List.range slot := by
  obtain ⟨k, rfl⟩ := Nat.exists_eq_add_of_lt h
  have hsplit : List.range (slot + k + 1) =
      List.range slot ++ slot :: (List.range k).map (slot + 1 + ·) := by
    rw [Nat.add_right_comm, List.range_add, List.range_succ, List.append_assoc]
    rfl
  rw [hsplit, before_append_cons List.not_mem_range_self]

/-- Along a path of at least one edge the cycles of issue grow, and what leads to an issued slot has issued.
Induction on the path, from its end. -/
theorem Board.Sound.cycleOf_lt_of_path {g : Graph} {b : Board} (h : Sound g b) {s s' : Slot}
    (hpath : Relation.TransGen g.Depends s s') (hs' : s' ∈ b.order) :
    s ∈ b.order ∧ b.cycleOf s < b.cycleOf s' := by
  induction hpath with
  | single hdep => exact h.later _ hs' _ hdep
  | tail _ hdep ih =>
    obtain ⟨hmid, hlt⟩ := h.later _ hs' _ hdep
    obtain ⟨hs, hlt'⟩ := ih hmid
    exact ⟨hs, Nat.lt_trans hlt' hlt⟩

/-- **A sound order is topological**: no slot reaches one that has issued before it. -/
theorem Board.Sound.order_topological {g : Graph} {b : Board} (h : Sound g b) :
    b.order.Pairwise fun s s' => ¬ g.Reaches s' s := by
  have hne : b.order.Pairwise (· ≠ ·) := h.order_nodup
  -- the order is sorted by cycle, and cycles grow strictly along paths
  refine (h.order_sorted.and hne).imp_of_mem ?_
  rintro s s' hs hs' ⟨hle, hne⟩ hreaches
  rcases Relation.reflTransGen_iff_eq_or_transGen.mp hreaches with heq | hpath
  · exact hne heq
  · exact absurd (h.cycleOf_lt_of_path hpath hs).2 (Nat.not_lt.mpr hle)

/-- In a topological order whatever reaches a slot is before it. -/
theorem mem_before_of_reaches {g : Graph} {order : List Slot} (hnodup : order.Nodup)
    (htop : order.Pairwise fun s s' => ¬ g.Reaches s' s) {a b : Slot} (ha : a ∈ order)
    (hb : b ∈ order) (hreaches : g.Reaches a b) (hne : a ≠ b) : a ∈ before order b := by
  obtain ⟨rest, horder, _, _⟩ := exists_eq_before_append hnodup hb
  rw [horder] at ha htop
  rcases List.mem_append.mp ha with ha | ha
  · exact ha
  · rcases List.mem_cons.mp ha with heq | ha
    · exact absurd heq hne
    · exact absurd hreaches ((List.pairwise_cons.mp (List.pairwise_append.mp htop).2.1).1 a ha)

/-! ## Records

A block is listed as records before it is scheduled, and the longest paths are written into them. Neither
changes which instruction stands where. -/

/-- The latency that the model gives an instruction. -/
def MachineModel.latencyOf (model : MachineModel) (inst : Instruction) : Nat :=
  ((model inst.mnemonic inst.shape).map (·.latency)).getD 0

/-- Records that could be listed stand for the instructions, name their slots in order and have the latencies of
the model. Induction on the block, for any slot that it starts with. -/
theorem enlist_eq_ok {model : MachineModel} {slot : Slot} {block : List Instruction}
    {records : List Record} (h : enlist model slot block = .ok records) :
    records.map (·.inst) = block ∧ records.map (·.slot) = List.range' slot block.length ∧
      records.map (·.latency) = block.map model.latencyOf := by
  induction block generalizing slot records with
  | nil =>
    cases h
    exact ⟨rfl, rfl, rfl⟩
  | cons inst rest ih =>
    obtain ⟨entry, hentry, h⟩ := Except.bind_eq_ok_iff.mp h
    split at h
    · cases h
    · obtain ⟨tail, htail, h⟩ := Except.bind_eq_ok_iff.mp h
      cases h
      obtain ⟨hinst, hslot, hlat⟩ := ih htail
      -- the record takes its latency from the entry that the model has
      have hlatency : entry.latency = model.latencyOf inst := by
        unfold MachineModel.entryOf at hentry
        unfold MachineModel.latencyOf
        split at hentry
        · rename_i found hfound
          cases hentry
          rw [hfound]
          rfl
        · cases hentry
      refine ⟨?_, ?_, ?_⟩
      · rw [List.map_cons, hinst]
        rfl
      · rw [List.map_cons, hslot]
        rfl
      · rw [List.map_cons, List.map_cons, hlat, ← hlatency]
        rfl

/-- So every record stands at the position that it names. -/
theorem positioned_of_enlist {model : MachineModel} {block : List Instruction} {records : List Record}
    (h : enlist model 0 block = .ok records) : Positioned records.toArray := by
  intro i r hr
  have hr : records[i]? = some r := by simpa using hr
  have hslot := congrArg (·[i]?) (enlist_eq_ok h).2.1
  simp only [List.getElem?_map, hr, Option.map_some] at hslot
  obtain ⟨_, hi⟩ := List.getElem?_eq_some_iff.mp hslot.symm
  simpa using hi.symm

theorem length_of_enlist {model : MachineModel} {slot : Slot} {block : List Instruction}
    {records : List Record} (h : enlist model slot block = .ok records) :
    records.length = block.length := by
  rw [← (enlist_eq_ok h).1, List.length_map]

namespace BlockSchedule

@[simp] theorem size_withPaths (records : Array Record) (paths : Array Nat) :
    (withPaths records paths).size = records.size := Array.size_mapIdx

/-- A function of a record that does not look at its path is the same with paths written in. -/
theorem map_getElem?_withPaths {α : Type} (f : Record → α)
    (hf : ∀ r path, f { r with longestPath := path } = f r) (records : Array Record)
    (paths : Array Nat) (i : Nat) : (withPaths records paths)[i]?.map f = records[i]?.map f := by
  unfold withPaths
  rw [Array.getElem?_mapIdx, Option.map_map]
  congr 1
  funext r
  rw [Function.comp_apply]
  split
  · exact hf r _
  · rfl

theorem positioned_withPaths {records : Array Record} (h : Positioned records) (paths : Array Nat) :
    Positioned (withPaths records paths) := by
  intro i r hr
  have hslot := map_getElem?_withPaths Record.slot (fun _ _ => rfl) records paths i
  rw [hr, Option.map_some] at hslot
  obtain ⟨r₀, hr₀, heq⟩ := Option.map_eq_some_iff.mp hslot.symm
  rw [← heq]
  exact h i r₀ hr₀

end BlockSchedule

/-! ## Schedules

A block is enlisted, tracked, closed, measured and issued. Of these steps tracking and closing cannot fail, so
that a schedule is one over the closed graph of its block (`scheduleBlock_of_enlist`). Everything that later
modules need of a schedule with reordering is in `Scheduled`, or is read off the last board. -/

/-- What a schedule keeps of its block: every slot issues once, in a topological order of the closed
graph of the block. -/
structure Scheduled (latencies : LatencyTable) (block : List Instruction) (s : BlockSchedule) :
    Prop where
  order_perm : s.order.Perm (List.range block.length)
  closes : (Tracker.recordedBlock latencies block).Closes s.graph
  topological : s.order.Pairwise fun a b => ¬ s.graph.Reaches b a

/-- Schedules records over a closed graph: the part of scheduling that can still fail. -/
def BlockSchedule.ofGraph (g : Graph) (records : Array Record) :
    Except ScheduleError BlockSchedule := do
  let paths ← g.longestPaths (records.toList.map (·.latency))
  match listSchedule g (withPaths records paths) with
  | (records, .ok order) => return { order, records, graph := g }
  | (_, .error e) => throw e

/-- Once the paths are known, a schedule is what list scheduling makes of the records. -/
theorem BlockSchedule.ofGraph_of_paths {g : Graph} {records final : Array Record}
    {paths : Array Nat} {result : Except ScheduleError (List Slot)}
    (hpaths : g.longestPaths (records.toList.map (·.latency)) = .ok paths)
    (hlist : listSchedule g (withPaths records paths) = (final, result)) :
    ofGraph g records = result.map fun order => { order, records := final, graph := g } := by
  unfold ofGraph
  rw [hpaths]
  show Except.bind (.ok paths) _ = _
  rw [Except.bind, hlist]
  cases result <;> rfl

/-- Tracking never fails, so an enabled schedule is one over the closed graph of the block. -/
theorem scheduleBlock_of_enlist {model : MachineModel} {options : Options} {block : List Instruction}
    {records : List Record} {g : Graph} (henabled : options.enabled = true)
    (hrecords : enlist model 0 block = .ok records)
    (hfinish : (Tracker.recordedBlock options.latencies block).finish = .ok g) :
    scheduleBlock model options block = BlockSchedule.ofGraph g records.toArray := by
  unfold scheduleBlock
  rw [hrecords, Tracker.ofBlock_eq_ok]
  show (if options.enabled then _ else _) = _
  rw [if_pos henabled]
  show BlockSchedule.ofTracker (Tracker.recordedBlock options.latencies block) records.toArray = _
  unfold BlockSchedule.ofTracker
  rw [hfinish]
  rfl

theorem size_eq_of_enlist {model : MachineModel} {latencies : LatencyTable} {block : List Instruction}
    {records : List Record} {g : Graph} (hrecords : enlist model 0 block = .ok records)
    (hcloses : (Tracker.recordedBlock latencies block).Closes g) :
    records.toArray.size = g.size := by
  rw [List.size_toArray, length_of_enlist hrecords, hcloses.size_eq,
    (Tracker.tidy_recordedBlock latencies block).2]

/-- **How a schedule comes about**: from the records of the block and the paths of its closed graph. Each step
is taken off the front of the computation. -/
theorem scheduleBlock_eq_ok {model : MachineModel} {options : Options} {block : List Instruction}
    {s : BlockSchedule} (henabled : options.enabled = true)
    (h : scheduleBlock model options block = .ok s) :
    ∃ records paths, enlist model 0 block = .ok records ∧
      (Tracker.recordedBlock options.latencies block).Closes s.graph ∧
      s.graph.longestPaths (records.map (·.latency)) = .ok paths ∧
      listSchedule s.graph (BlockSchedule.withPaths records.toArray paths)
        = (s.records, .ok s.order) := by
  obtain ⟨records, hrecords, _⟩ := Except.bind_eq_ok_iff.mp h
  obtain ⟨g, hfinish, hcloses⟩ := Tracker.finish_recordedBlock options.latencies block
  rw [scheduleBlock_of_enlist henabled hrecords hfinish] at h
  obtain ⟨paths, hpaths, h⟩ := Except.bind_eq_ok_iff.mp h
  split at h
  · rename_i final order hlist
    cases h
    exact ⟨records, paths, hrecords, hcloses, hpaths, hlist⟩
  · cases h

/-- **The board behind a schedule**, on which every slot has issued. The records are in their positions and as
many as slots, so `sound_of_listSchedule` applies. -/
theorem exists_board_of_scheduleBlock {model : MachineModel} {options : Options}
    {block : List Instruction} {s : BlockSchedule} (henabled : options.enabled = true)
    (h : scheduleBlock model options block = .ok s) :
    (Tracker.recordedBlock options.latencies block).Closes s.graph ∧
      s.order.Perm (List.range block.length) ∧
      ∃ b, Sound s.graph b ∧ b.records = s.records ∧ b.order = s.order := by
  obtain ⟨records, paths, hrecords, hcloses, _, hlist⟩ := scheduleBlock_eq_ok henabled h
  have hsize := size_eq_of_enlist hrecords hcloses
  rw [← BlockSchedule.size_withPaths _ paths] at hsize
  have hpos := BlockSchedule.positioned_withPaths (positioned_of_enlist hrecords) paths
  obtain ⟨b, hsound, _, hrecs, horder, hperm⟩ := sound_of_listSchedule hcloses.inverted hsize hpos hlist
  rw [hcloses.size_eq, (Tracker.tidy_recordedBlock options.latencies block).2] at hperm
  exact ⟨hcloses, hperm, b, hsound, hrecs, horder⟩

/-- **A successful schedule is `Scheduled`**: the board behind it is sound, and a sound order is topological. -/
theorem scheduled_of_scheduleBlock {model : MachineModel} {options : Options}
    {block : List Instruction} {s : BlockSchedule} (henabled : options.enabled = true)
    (h : scheduleBlock model options block = .ok s) : Scheduled options.latencies block s := by
  obtain ⟨hcloses, hperm, b, hsound, _, horder⟩ := exists_board_of_scheduleBlock henabled h
  exact ⟨hperm, hcloses, horder ▸ hsound.order_topological⟩

/-! ## Cycles of issue

The same in terms of the cycles that the records show. -/

namespace BlockSchedule

/-- The cycle in which a slot issues. -/
def cycleAt (s : BlockSchedule) (slot : Slot) : Option Nat := s.records[slot]?.bind (·.issueTime)

/-- Both slots issue, the first in a strictly earlier cycle. -/
def IssuesBefore (s : BlockSchedule) (first second : Slot) : Prop :=
  ∃ earlier later, s.cycleAt first = some earlier ∧ s.cycleAt second = some later ∧ earlier < later

theorem IssuesBefore.trans {s : BlockSchedule} {first second third : Slot}
    (h : s.IssuesBefore first second) (h' : s.IssuesBefore second third) : s.IssuesBefore first third := by
  obtain ⟨a, b, ha, hb, hab⟩ := h
  obtain ⟨b', c, hb', hc, hbc⟩ := h'
  cases hb.symm.trans hb'
  exact ⟨a, c, ha, hc, Nat.lt_trans hab hbc⟩

theorem not_issuesBefore_of_le {s : BlockSchedule} {first second : Slot} {a b : Nat}
    (ha : s.cycleAt first = some a) (hb : s.cycleAt second = some b) (hle : b ≤ a) :
    ¬ s.IssuesBefore first second := by
  rintro ⟨a', b', ha', hb', hlt⟩
  cases ha.symm.trans ha'
  cases hb.symm.trans hb'
  exact Nat.not_lt.mpr hle hlt

end BlockSchedule

/-- **A path leads to a strictly later cycle.** On the board behind the schedule this is `cycleOf_lt_of_path`,
and the records have the cycles of the board. -/
theorem issuesBefore_of_reaches {model : MachineModel} {options : Options} {block : List Instruction}
    {s : BlockSchedule} (henabled : options.enabled = true)
    (h : scheduleBlock model options block = .ok s) {first second : Slot}
    (hreaches : s.graph.Reaches first second) (hne : first ≠ second) (hlt : second < block.length) :
    s.IssuesBefore first second := by
  obtain ⟨_, hperm, b, hsound, hrecords, horder⟩ := exists_board_of_scheduleBlock henabled h
  have hsecond : second ∈ b.order := by
    rw [horder]
    exact hperm.mem_iff.mpr (List.mem_range.mpr hlt)
  have hpath : Relation.TransGen s.graph.Depends first second :=
    (Relation.reflTransGen_iff_eq_or_transGen.mp hreaches).resolve_left (Ne.symm hne)
  obtain ⟨hfirst, hcycle⟩ := hsound.cycleOf_lt_of_path hpath hsecond
  have hcycleAt : ∀ {slot : Slot}, slot ∈ b.order → s.cycleAt slot = some (b.cycleOf slot) := by
    intro slot hslot
    rw [BlockSchedule.cycleAt, ← hrecords]
    exact hsound.issueTime_eq slot hslot
  exact ⟨_, _, hcycleAt hfirst, hcycleAt hsecond, hcycle⟩

end DualIssue
