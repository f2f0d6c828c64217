import DualIssue.Machine.Atom
import DualIssue.Proofs.FlagOrder

/-!
# Which flags a reader sees

An instruction that reads the flags sees those of the last writer that has issued before it. In program
order that is the nearest writer above. A schedule keeps this writer before the reader and all earlier
writers before this writer. Later writers are the weak spot: the first writer after a reader is put after
it and empties the list of readers, so a second one knows nothing of the reader. As long as the touch of
the flags before it and the touch after it are writes too, nothing orders it: it floats.

* **`flagSource`**: the writer whose flags a slot sees under some order of issue.
* **`Floating`**: a write between two writes.
* **`flagSource_eq_iff_no_floating_between`**: a reader sees the flags of program order exactly if no
  later floating write has issued between their writer and it.
* **`flagSource_of_floating_add`**: a block on which one has.
-/

namespace DualIssue

open DualIssue.Graph

/-! ## The last of some slots

The flags that a reader sees are found by filtering an order and taking the last slot. This turns the question
into one about which slot is before which, where the paths of the graph have a say. -/

/-- The last slot of an order that passes a test is the one that all others come before. The order is cut at the
slot in question; since nothing is listed twice, what comes behind it is not what comes before it. -/
theorem getLast?_filter_eq_some_iff {order : List Slot} (hnodup : order.Nodup) {test : Slot → Bool}
    {w : Slot} :
    (order.filter test).getLast? = some w ↔
      w ∈ order ∧ test w = true ∧ ∀ k ∈ order, test k = true → k ≠ w → k ∈ before order w := by
  constructor
  · intro hlast
    obtain ⟨hmem, htest⟩ := List.mem_filter.mp (List.mem_of_getLast? hlast)
    refine ⟨hmem, htest, fun k hk hktest hne => ?_⟩
    obtain ⟨rest, horder, _, hrest⟩ := exists_eq_before_append hnodup hmem
    rw [horder] at hk hlast
    rcases List.mem_append.mp hk with hk | hk
    · exact hk
    · -- after `w` there is nothing that passes, or the last such slot would be it
      have hk : k ∈ rest := (List.mem_cons.mp hk).resolve_left hne
      have hkeep : k ∈ rest.filter test := List.mem_filter.mpr ⟨hk, hktest⟩
      rw [List.filter_append, List.filter_cons_of_pos htest, List.getLast?_append_cons,
        List.getLast?_cons_of_ne_nil (List.ne_nil_of_mem hkeep)] at hlast
      exact absurd (List.mem_filter.mp (List.mem_of_getLast? hlast)).1 hrest
  · rintro ⟨hmem, htest, hall⟩
    obtain ⟨rest, horder, hfront, hrest⟩ := exists_eq_before_append hnodup hmem
    have hnone : rest.filter test = [] := by
      refine List.filter_eq_nil_iff.mpr fun k hk hktest => ?_
      have hne : k ≠ w := fun heq => hrest (heq ▸ hk)
      have hbefore := hall k (by rw [horder]; simp [hk]) hktest hne
      rw [horder] at hnodup
      exact (List.nodup_append.mp hnodup).2.2 k hbefore k (List.mem_cons_of_mem _ hk) rfl
    rw [horder, List.filter_append, List.filter_cons_of_pos htest, hnone, List.getLast?_concat]

/-! ## Readers and writers in the trace

The trace of the flags lists touches, and an instruction that does both has two of them, the read first. The
lemmas here connect the instructions of a block with the entries of the trace and cut the trace at the touches
of one instruction, so that the history of the flags (`FlagHistory`) can be applied there. -/

/-- Does the instruction in this slot read the flags? -/
def readsFlagsAt (block : List Instruction) (slot : Slot) : Bool :=
  block[slot]?.any (·.readsFlags)

/-- The writer whose flags the instruction in a slot sees if the slots issue in this order, if there is
one. What the instruction itself writes comes too late for it. -/
def flagSource (block : List Instruction) (order : List Slot) (slot : Slot) : Option Slot :=
  ((before order slot).filter (writesFlagsAt block)).getLast?

/-- A write of the flags floats if the touches of the flags just before and just after it are writes. -/
def Floating (block : List Instruction) (slot : Slot) : Prop :=
  ∃ i j, [(i, .define), (slot, .define), (j, .define)] <:+: flagTrace block

/-- An instruction touches the flags to read them or to write them, never in one access for both. -/
theorem mem_flagRoles_accesses {inst : Instruction} {role : Role} :
    role ∈ flagRoles inst.accesses ↔
      role = .use ∧ inst.readsFlags = true ∨ role = .define ∧ inst.writesFlags = true := by
  rw [flagRoles_accesses]
  cases inst.readsFlags <;> cases inst.writesFlags <;> simp

/-- The trace has a read for each reader and a write for each writer. -/
theorem mem_flagTrace_iff {block : List Instruction} {slot : Slot} {role : Role} :
    (slot, role) ∈ flagTrace block ↔
      role = .use ∧ readsFlagsAt block slot = true ∨
        role = .define ∧ writesFlagsAt block slot = true := by
  have hmem : (slot, role) ∈ flagTrace block ↔
      ∃ inst, block[slot]? = some inst ∧ role ∈ flagRoles inst.accesses := by
    simp [flagTrace, List.mem_zipIdx_iff_getElem?]
  rw [hmem, readsFlagsAt, writesFlagsAt]
  cases block[slot]? with
  | none => simp
  | some inst => simp [mem_flagRoles_accesses]

/-- The trace of the first instructions agrees with that of the block, as far as it goes. -/
theorem mem_flagTrace_take_iff {block : List Instruction} {slot bound : Slot} {role : Role}
    (h : slot < bound) : (slot, role) ∈ flagTrace (block.take bound) ↔ (slot, role) ∈ flagTrace block := by
  rw [mem_flagTrace_iff, mem_flagTrace_iff, readsFlagsAt, readsFlagsAt, writesFlagsAt, writesFlagsAt,
    List.getElem?_take_of_lt h]

/-- The trace around the touches of one instruction: what the instructions before it touch, its own touches, and
the rest. -/
theorem exists_flagTrace_eq {block : List Instruction} {slot : Slot} {inst : Instruction}
    (h : block[slot]? = some inst) :
    ∃ back, flagTrace block =
      flagTrace (block.take slot) ++ (flagRoles inst.accesses).map (slot, ·) ++ back := by
  obtain ⟨hlt, hinst⟩ := List.getElem?_eq_some_iff.mp h
  have hblock : block = block.take slot ++ inst :: block.drop (slot + 1) := by
    rw [← hinst, ← List.drop_eq_getElem_cons hlt, List.take_append_drop]
  have hlength : (block.take slot).length = slot := List.length_take_of_le (Nat.le_of_lt hlt)
  refine ⟨((block.drop (slot + 1)).zipIdx (slot + 1)).flatMap fun entry =>
    (flagRoles entry.1.accesses).map (entry.2, ·), ?_⟩
  conv => lhs; rw [hblock]
  simp [flagTrace, List.zipIdx_append, hlength]

theorem flagWriterSlots_take {block : List Instruction} {slot : Slot} (h : slot ≤ block.length) :
    flagWriterSlots (flagTrace (block.take slot)) =
      (List.range slot).filter (writesFlagsAt block) := by
  rw [flagWriterSlots_flagTrace, List.length_take_of_le h]
  refine List.filter_congr fun i hi => ?_
  rw [writesFlagsAt, List.getElem?_take_of_lt (List.mem_range.mp hi)]
  rfl

/-- In program order a slot sees the flags of the nearest writer above it. -/
theorem flagSource_range {block : List Instruction} {slot : Slot} (h : slot < block.length) :
    flagSource block (List.range block.length) slot =
      (flagWriterSlots (flagTrace (block.take slot))).getLast? := by
  rw [flagSource, before_range h, flagWriterSlots_take (Nat.le_of_lt h)]

/-- The writer that is seen in program order is above the reader. -/
theorem flagSource_range_eq_some {block : List Instruction} {slot w : Slot} (h : slot < block.length)
    (hw : flagSource block (List.range block.length) slot = some w) :
    w < slot ∧ writesFlagsAt block w = true := by
  rw [flagSource, before_range h] at hw
  obtain ⟨hmem, hwrites⟩ := List.mem_filter.mp (List.mem_of_getLast? hw)
  exact ⟨List.mem_range.mp hmem, hwrites⟩

theorem not_writesFlagsAt_of_flagSource_eq_none {block : List Instruction} {slot k : Slot}
    (h : slot < block.length) (hnone : flagSource block (List.range block.length) slot = none)
    (hk : k < slot) : ¬ writesFlagsAt block k = true := by
  rw [flagSource, before_range h, List.getLast?_eq_none_iff] at hnone
  exact List.filter_eq_nil_iff.mp hnone k (List.mem_range.mpr hk)

theorem Floating.writesFlagsAt {block : List Instruction} {slot : Slot} (h : Floating block slot) :
    writesFlagsAt block slot = true := by
  obtain ⟨i, j, hinfix⟩ := h
  have hmem : (slot, Role.define) ∈ flagTrace block := hinfix.subset (by simp)
  rcases mem_flagTrace_iff.mp hmem with ⟨hrole, _⟩ | ⟨_, hwrites⟩
  · cases hrole
  · exact hwrites

theorem lt_length_of_readsFlagsAt {block : List Instruction} {slot : Slot}
    (h : readsFlagsAt block slot = true) : slot < block.length := by
  obtain ⟨inst, hinst, _⟩ := Option.any_eq_true _ _ |>.mp h
  exact (List.getElem?_eq_some_iff.mp hinst).1

theorem lt_length_of_writesFlagsAt {block : List Instruction} {slot : Slot}
    (h : writesFlagsAt block slot = true) : slot < block.length := by
  obtain ⟨inst, hinst, _⟩ := Option.any_eq_true _ _ |>.mp h
  exact (List.getElem?_eq_some_iff.mp hinst).1

section Closed

variable {latencies : LatencyTable} {block : List Instruction} {g : Graph}
  (hg : (Tracker.recordedBlock latencies block).Closes g) {j : Slot}

include hg

/-- A reader comes after the writer that it sees in program order, and that one after all earlier writers. This
is what the history of the flags says of a read, applied where the reader stands in the trace. -/
theorem reaches_of_flagSource (hj : readsFlagsAt block j = true) {w : Slot}
    (hw : flagSource block (List.range block.length) j = some w) :
    g.Reaches w j ∧ ∀ k, k < j → writesFlagsAt block k = true → g.Reaches k w := by
  have hlt := lt_length_of_readsFlagsAt hj
  obtain ⟨inst, hinst, hreads⟩ := Option.any_eq_true _ _ |>.mp hj
  obtain ⟨back, htrace⟩ := exists_flagTrace_eq hinst
  rw [flagRoles_accesses, if_pos hreads, List.map_append, ← List.append_assoc,
    List.append_assoc, List.append_assoc] at htrace
  rw [flagSource_range hlt] at hw
  obtain ⟨hread, hall⟩ := (flagHistory_of_closes hg).reads htrace rfl hw
  refine ⟨hread, fun k hk hwrites => hall k ?_⟩
  rw [flagWriterSlots_take (Nat.le_of_lt hlt)]
  exact List.mem_filter.mpr ⟨List.mem_range.mpr hk, hwrites⟩

/-- **A write that does not float comes after every earlier touch of the flags.** The touch just before it is a
read, or it is a write and the touch just after it is a read or missing. In each of these cases the history or
the end of the block puts the write after all earlier touches. -/
theorem reaches_of_not_floating {touch : Role} (hj : (j, touch) ∈ flagTrace block) {k : Slot}
    (hlt : j < k) (hk : writesFlagsAt block k = true) (hnot : ¬ Floating block k) : g.Reaches j k := by
  obtain ⟨inst, hinst, hwrites⟩ := Option.any_eq_true _ _ |>.mp hk
  obtain ⟨back, htrace⟩ := exists_flagTrace_eq hinst
  rw [flagRoles_accesses, if_pos hwrites, List.map_append, ← List.append_assoc,
    List.append_assoc] at htrace
  -- the touches before the write, among them the one in question
  generalize hfront : flagTrace (block.take k) ++
    (if inst.readsFlags = true then [Role.use] else []).map (k, ·) = front at htrace
  have hmem : (j, touch) ∈ front := by
    rw [← hfront]
    exact List.mem_append_left _ ((mem_flagTrace_take_iff hlt).mpr hj)
  have hsettled : SettledWrite front .define back → g.Reaches j k := fun hsettled =>
    (flagHistory_of_closes hg).settled htrace rfl hsettled hmem
  have hrole : ∀ {q role}, (q, role) ∈ flagTrace block → role = .use ∨ role = .define := by
    intro q role hq
    exact (mem_flagTrace_iff.mp hq).imp And.left And.left
  -- what kind of touch is just before the write, and then just after it
  rcases List.eq_nil_or_concat' front with hnil | ⟨front', ⟨q, role⟩, hconcat⟩
  · rw [hnil] at hmem
    cases hmem
  · have hlast : front.getLast? = some (q, role) := by rw [hconcat, List.getLast?_concat]
    have hq : (q, role) ∈ flagTrace block := by
      rw [htrace, hconcat]
      simp
    rcases hrole hq with rfl | rfl
    · exact hsettled (Or.inr (Or.inl ⟨q, .use, hlast, Bool.false_ne_true⟩))
    · cases back with
      | nil => exact reaches_of_last_write hg htrace rfl hmem
      | cons e back =>
        obtain ⟨q', role'⟩ := e
        have hq' : (q', role') ∈ flagTrace block := by
          rw [htrace]
          simp
        rcases hrole hq' with rfl | rfl
        · exact hsettled (Or.inr (Or.inr ⟨q', .use, rfl, rfl⟩))
        · refine absurd ⟨q, q', ?_⟩ hnot
          exact ⟨front', back, by rw [htrace, hconcat]; simp⟩

end Closed

/-! ## What a schedule does to readers

An order that follows the paths keeps a writer before its readers, and earlier writers before that writer. So
the only writers that can come between are later ones that issue early, and of these only the floating ones,
since all others are behind the reader on a path. -/

section Schedule

variable {latencies : LatencyTable} {block : List Instruction} {s : BlockSchedule}
  (hs : Scheduled latencies block s) {j : Slot}

include hs

theorem Scheduled.mem_before {a b : Slot} (hreaches : s.graph.Reaches a b) (hne : a ≠ b)
    (hb : b < block.length) : a ∈ before s.order b := by
  have hnodup : s.order.Nodup := hs.order_perm.nodup_iff.mpr List.nodup_range
  have ha : a < block.length :=
    Nat.lt_of_le_of_lt (hs.closes.forward.le_of_reaches hreaches) hb
  have hmem : ∀ {x : Slot}, x < block.length → x ∈ s.order :=
    fun hx => hs.order_perm.mem_iff.mpr (List.mem_range.mpr hx)
  exact mem_before_of_reaches hnodup hs.topological (hmem ha) (hmem hb) hreaches hne

/-- A later write that does not float issues after the reader, since the reader is an earlier touch. -/
theorem Scheduled.not_mem_before_of_not_floating (hj : readsFlagsAt block j = true) {k : Slot}
    (hlt : j < k) (hk : writesFlagsAt block k = true) (hnot : ¬ Floating block k) :
    k ∉ before s.order j := by
  have htouch := mem_flagTrace_iff.mpr (Or.inl ⟨rfl, hj⟩)
  have hjk := hs.mem_before (reaches_of_not_floating hs.closes htouch hlt hk hnot)
    (Nat.ne_of_lt hlt) (lt_length_of_writesFlagsAt hk)
  intro hkj
  exact not_mem_before_of_mem_before hjk hkj

/-- The writer that a reader sees in program order issues before it, after all other writers above. -/
theorem Scheduled.mem_before_of_flagSource (hj : readsFlagsAt block j = true) {w : Slot}
    (hw : flagSource block (List.range block.length) j = some w) :
    w ∈ before s.order j ∧
      ∀ k, k < j → writesFlagsAt block k = true → k ≠ w → k ∈ before s.order w := by
  have hlt := lt_length_of_readsFlagsAt hj
  have hwj := (flagSource_range_eq_some hlt hw).1
  obtain ⟨hread, hearlier⟩ := reaches_of_flagSource hs.closes hj hw
  refine ⟨hs.mem_before hread (Nat.ne_of_lt hwj) hlt, fun k hk hwrites hne => ?_⟩
  exact hs.mem_before (hearlier k hk hwrites) hne (Nat.lt_trans hwj hlt)

theorem Scheduled.nodup_before (j : Slot) : (before s.order j).Nodup :=
  (hs.order_perm.nodup_iff.mpr List.nodup_range).sublist (List.takeWhile_sublist _)

/-- If a reader sees the flags of program order, any later writer that issues before it issues before the
writer that it sees. -/
theorem Scheduled.exists_source_of_flagSource_eq (hj : readsFlagsAt block j = true)
    (heq : flagSource block s.order j = flagSource block (List.range block.length) j) {k : Slot}
    (hjk : j < k) (hwrites : writesFlagsAt block k = true) (hk : k ∈ before s.order j) :
    ∃ w, flagSource block (List.range block.length) j = some w ∧ k ∈ before s.order w := by
  have hmem : k ∈ (before s.order j).filter (writesFlagsAt block) :=
    List.mem_filter.mpr ⟨hk, hwrites⟩
  obtain ⟨w, hw⟩ : ∃ w, flagSource block s.order j = some w :=
    ⟨_, List.getLast?_eq_some_getLast (List.ne_nil_of_mem hmem)⟩
  have hprogram := heq.symm.trans hw
  refine ⟨w, hprogram, ?_⟩
  -- the writer seen in program order is above the reader, so it is another one
  have hwj := (flagSource_range_eq_some (lt_length_of_readsFlagsAt hj) hprogram).1
  have hne : k ≠ w := Nat.ne_of_gt (Nat.lt_trans hwj hjk)
  obtain ⟨hwbefore, _, hall⟩ := (getLast?_filter_eq_some_iff (hs.nodup_before j)).mp hw
  rw [← before_before hwbefore]
  exact hall k hk hwrites hne

/-- If all later writers that issue before a reader issue even before the writer that it sees in program order,
it sees that writer in the schedule. A writer that issues before the reader is above it, and then it is before
the one seen (`mem_before_of_flagSource`), or below it, and then the hypothesis says so. -/
theorem Scheduled.flagSource_eq_of_later (hj : readsFlagsAt block j = true)
    (hlater : ∀ k, j < k → writesFlagsAt block k = true → k ∈ before s.order j →
      ∃ w, flagSource block (List.range block.length) j = some w ∧ k ∈ before s.order w) :
    flagSource block s.order j = flagSource block (List.range block.length) j := by
  have hlt := lt_length_of_readsFlagsAt hj
  cases hsource : flagSource block (List.range block.length) j with
  | none =>
    refine List.getLast?_eq_none_iff.mpr (List.filter_eq_nil_iff.mpr fun k hk hwrites => ?_)
    rcases Nat.lt_trichotomy k j with hkj | rfl | hjk
    · exact not_writesFlagsAt_of_flagSource_eq_none hlt hsource hkj hwrites
    · exact not_mem_before_self hk
    · obtain ⟨w, hw, _⟩ := hlater k hjk hwrites hk
      cases hsource.symm.trans hw
  -- every other writer before the reader has to be before `w`
  | some w =>
    obtain ⟨hwbefore, hearlier⟩ := hs.mem_before_of_flagSource hj hsource
    refine (getLast?_filter_eq_some_iff (hs.nodup_before j)).mpr
      ⟨hwbefore, (flagSource_range_eq_some hlt hsource).2, fun k hk hwrites hne => ?_⟩
    rw [before_before hwbefore]
    rcases Nat.lt_trichotomy k j with hkj | rfl | hjk
    · exact hearlier k hkj hwrites hne
    · exact absurd hk not_mem_before_self
    · obtain ⟨w', hw', hkw⟩ := hlater k hjk hwrites hk
      cases hsource.symm.trans hw'
      exact hkw

end Schedule

/-- **Which readers see the flags of program order.** A reader does exactly if every later floating write
that issues before it issues even before the writer that it sees in program order. -/
theorem flagSource_eq_iff_no_floating_between {model : MachineModel} {options : Options}
    {block : List Instruction} {s : BlockSchedule} (henabled : options.enabled = true)
    (h : scheduleBlock model options block = .ok s) {j : Slot} (hj : readsFlagsAt block j = true) :
    flagSource block s.order j = flagSource block (List.range block.length) j ↔
      ∀ k, j < k → Floating block k → k ∈ before s.order j →
        ∃ w, flagSource block (List.range block.length) j = some w ∧ k ∈ before s.order w := by
  have hs := scheduled_of_scheduleBlock henabled h
  constructor
  · intro heq k hjk hfloat hk
    exact hs.exists_source_of_flagSource_eq hj heq hjk hfloat.writesFlagsAt hk
  · intro hfloats
    refine hs.flagSource_eq_of_later hj fun k hjk hwrites hk => ?_
    -- a later writer that does not float waits for the reader
    by_cases hfloat : Floating block k
    · exact hfloats k hjk hfloat hk
    · exact absurd hk (hs.not_mem_before_of_not_floating hj hjk hwrites hfloat)

/-- A comparison, a conditional move that reads its flags, and three additions. -/
def floatingAdds : List Instruction :=
  [{ mnemonic := .cmp, operands := .immToReg 0 .eax },
   { mnemonic := .cmov .e, operands := .regToReg .edx .ebx },
   { mnemonic := .add, operands := .immToReg 1 .ecx },
   { mnemonic := .add, operands := .immToReg 1 .edi },
   { mnemonic := .add, operands := .immToReg 1 .ebp }]

/-- With one instruction a cycle, the conditional move is in time: the floating addition waits. -/
theorem flagSource_eq_iff_on_floatingAdds :
    ({} : Options).enabled = true ∧ readsFlagsAt floatingAdds 1 = true ∧ Floating floatingAdds 3 ∧
      ∃ s, scheduleBlock (fun _ _ => some { port := .both, latency := 1 }) {} floatingAdds = .ok s ∧
        s.order = [0, 1, 2, 3, 4] ∧
        (flagSource floatingAdds s.order 1 = flagSource floatingAdds (List.range 5) 1 ↔
          ∀ k, 1 < k → Floating floatingAdds k → k ∈ before s.order 1 →
            ∃ w, flagSource floatingAdds (List.range 5) 1 = some w ∧ k ∈ before s.order w) := by
  have hresult : (scheduleBlock (fun _ _ => some { port := .both, latency := 1 }) {}
      floatingAdds).map (·.order) = .ok [0, 1, 2, 3, 4] := by
    decide +kernel
  obtain ⟨s, hs, horder⟩ := Except.map_eq_ok_iff.mp hresult
  have hreads : readsFlagsAt floatingAdds 1 = true := by decide
  exact ⟨rfl, hreads, ⟨2, 4, by decide⟩, s, hs, horder,
    flagSource_eq_iff_no_floating_between rfl hs hreads⟩

/-- **A reader that sees the wrong flags.** With two instructions a cycle the second addition floats up to
the comparison, and the conditional move after them sees its flags instead of those compared. -/
theorem flagSource_of_floating_add :
    ∃ s, scheduleBlock Atom.model {} floatingAdds = .ok s ∧ readsFlagsAt floatingAdds 1 = true ∧
      flagSource floatingAdds (List.range 5) 1 = some 0 ∧ flagSource floatingAdds s.order 1 = some 3 := by
  have hresult : (scheduleBlock Atom.model {} floatingAdds).map (·.order) = .ok [0, 3, 1, 2, 4] := by
    decide +kernel
  obtain ⟨s, hs, horder⟩ := Except.map_eq_ok_iff.mp hresult
  refine ⟨s, hs, by decide, by decide, ?_⟩
  rw [horder]
  decide

end DualIssue
