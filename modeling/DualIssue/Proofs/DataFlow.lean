import DualIssue.Machine.Atom
import DualIssue.Proofs.ConflictOrder

/-!
# Reordering keeps the meaning of data

Instructions are given a meaning: each computes new values for what it writes from the old values of what
it reads, whatever the values are. A schedule may change the order of issue, and still every instruction
sees the values that it sees in program order, and the same values are left behind at the end. The flags
are not part of this; they have rules of their own.

* **`Meaning`**, **`runSlots`**: an interpretation of the instructions, and running slots in some order.
* **`runSlot_comm`**: instructions without a conflict commute.
* **`runSlots_eq_of_pairwise`**: an order that keeps conflicting instructions in program order runs as
  program order does.
* **`scheduleBlock_preserves_data`**: so every schedule does.
-/

namespace DualIssue

universe u

open DualIssue.Graph

/-! ## What instructions read and write

Resources are taken from the accesses that the tracker records, apart from the flags. Two instructions conflict
if one writes what the other touches. Every conflict is one between two entries of the log, which is what the
theory of paths needs. -/

namespace Instruction

/-- The resources other than the flags that an instruction touches in a certain way. A volatile
instruction reads and writes all memory that cannot be told apart. -/
def dataTouched (inst : Instruction) (how : Role → Bool) : List Resource :=
  (inst.accesses.filter fun a => a.resource ≠ .flags && how a.role).map (·.resource)
    ++ if inst.isVolatile then [.memory] else []

/-- The resources other than the flags whose old values an instruction uses. -/
def dataReads (inst : Instruction) : List Resource := inst.dataTouched Role.reads

/-- The resources other than the flags that an instruction gives new values. -/
def dataWrites (inst : Instruction) : List Resource := inst.dataTouched Role.writes

/-- One of the two writes what the other reads or writes. -/
def Conflict (a b : Instruction) : Prop :=
  (∃ r ∈ a.dataWrites, r ∈ b.dataReads ∨ r ∈ b.dataWrites) ∨ ∃ r ∈ a.dataReads, r ∈ b.dataWrites

/-- What is touched is touched by an access that the tracker records. -/
theorem exists_access_of_mem_dataTouched {inst : Instruction} {how : Role → Bool}
    (hvolatile : how .useDefine = true) {r : Resource} (h : r ∈ inst.dataTouched how) :
    ∃ a ∈ Tracker.recordedAccesses inst, a.resource = r ∧ r ≠ .flags ∧ how a.role = true := by
  unfold Tracker.recordedAccesses
  rcases List.mem_append.mp h with h | h
  · obtain ⟨a, ha, rfl⟩ := List.mem_map.mp h
    obtain ⟨ha, hkeep⟩ := List.mem_filter.mp ha
    obtain ⟨hne, hhow⟩ := Bool.and_eq_true_iff.mp hkeep
    exact ⟨a, List.mem_append_left _ ha, rfl, of_decide_eq_true hne, hhow⟩
  · split at h
    · rename_i hv
      cases List.mem_singleton.mp h
      rw [if_pos hv]
      exact ⟨Tracker.volatileAccess, List.mem_append_right _ (List.mem_singleton.mpr rfl), rfl,
        Resource.noConfusion, hvolatile⟩
    · cases h

end Instruction

/-- The instructions in two slots conflict. -/
def ConflictAt (block : List Instruction) (i j : Slot) : Prop :=
  ∃ a b, block[i]? = some a ∧ block[j]? = some b ∧ a.Conflict b

/-- Two conflicting instructions have accesses in the log that must keep their order. -/
theorem ConflictAt.exists_accesses {block : List Instruction} {i j : Slot}
    (h : ConflictAt block i j) :
    ∃ a c, (i, a) ∈ Tracker.accessLog block ∧ (j, c) ∈ Tracker.accessLog block ∧ a.IsData ∧
      a.resource = c.resource ∧ (a.role.writes = true ∨ c.role.writes = true) := by
  obtain ⟨x, y, hx, hy, hconflict⟩ := h
  -- one argument for the three kinds of conflict: both touch the resource, each in its own way
  have hlog : ∀ {how how' : Role → Bool}, how .useDefine = true → how' .useDefine = true →
      ∀ {r}, r ∈ x.dataTouched how → r ∈ y.dataTouched how' →
      ∃ a c, (i, a) ∈ Tracker.accessLog block ∧ (j, c) ∈ Tracker.accessLog block ∧ a.IsData ∧
        a.resource = c.resource ∧ how a.role = true ∧ how' c.role = true := by
    intro how how' hv hv' r hr hr'
    obtain ⟨a, ha, rfl, hne, hhow⟩ := Instruction.exists_access_of_mem_dataTouched hv hr
    obtain ⟨c, hc, hres, _, hhow'⟩ := Instruction.exists_access_of_mem_dataTouched hv' hr'
    exact ⟨a, c, Tracker.mem_accessLog_iff.mpr ⟨x, hx, ha⟩, Tracker.mem_accessLog_iff.mpr ⟨y, hy, hc⟩,
      ⟨Tracker.allTracked_recordedAccesses x a ha, hne⟩, hres.symm, hhow, hhow'⟩
  rcases hconflict with ⟨r, hr, hr' | hr'⟩ | ⟨r, hr, hr'⟩
  · obtain ⟨a, c, ha, hc, hdata, hres, hw, _⟩ := hlog rfl rfl hr hr'
    exact ⟨a, c, ha, hc, hdata, hres, Or.inl hw⟩
  · obtain ⟨a, c, ha, hc, hdata, hres, hw, _⟩ := hlog rfl rfl hr hr'
    exact ⟨a, c, ha, hc, hdata, hres, Or.inl hw⟩
  · obtain ⟨a, c, ha, hc, hdata, hres, _, hw⟩ := hlog rfl rfl hr hr'
    exact ⟨a, c, ha, hc, hdata, hres, Or.inr hw⟩

/-! ## Running instructions

A state gives every resource a value. Running a slot replaces the values of what its instruction writes,
computed from what it reads; nothing else is assumed of the computation. The aim is to sort a schedule into
program order by moving one instruction at a time, and so the lemmas are about two neighbours, then about one
instruction and a list, then about whole orders. -/

/-- What the instructions compute: from the slot, the instruction and the old values of what it reads,
the new values of what it writes. -/
def Meaning (V : Type u) : Type u :=
  Slot → (inst : Instruction) → ({r // r ∈ inst.dataReads} → V) → {r // r ∈ inst.dataWrites} → V

section Running

variable {V : Type u} (m : Meaning V) (block : List Instruction)

/-- The state after the instruction in a slot. -/
def runSlot (state : Resource → V) (slot : Slot) : Resource → V :=
  match block[slot]? with
  | none => state
  | some inst => fun r =>
    if h : r ∈ inst.dataWrites then m slot inst (fun read => state read.1) ⟨r, h⟩ else state r

/-- The state after the instructions in some slots, the first of them first. -/
def runSlots (slots : List Slot) (init : Resource → V) : Resource → V :=
  slots.foldl (runSlot m block) init

variable {m block}

theorem runSlots_append (slots slots' : List Slot) (init : Resource → V) :
    runSlots m block (slots ++ slots') init = runSlots m block slots' (runSlots m block slots init) :=
  List.foldl_append

theorem runSlot_of_not_written {slot : Slot} {r : Resource}
    (h : ∀ inst, block[slot]? = some inst → r ∉ inst.dataWrites) (state : Resource → V) :
    runSlot m block state slot r = state r := by
  unfold runSlot
  cases hinst : block[slot]? with
  | none => rfl
  | some inst => exact dif_neg (h inst hinst)

theorem runSlots_of_not_written {slots : List Slot} {r : Resource}
    (h : ∀ slot ∈ slots, ∀ inst, block[slot]? = some inst → r ∉ inst.dataWrites)
    (state : Resource → V) : runSlots m block slots state r = state r := by
  induction slots generalizing state with
  | nil => rfl
  | cons slot rest ih =>
    show runSlots m block rest (runSlot m block state slot) r = state r
    rw [ih fun s hs => h s (List.mem_cons_of_mem _ hs),
      runSlot_of_not_written (h slot List.mem_cons_self)]

/-- What an instruction writes depends on what it reads only. -/
theorem runSlot_congr {slot : Slot} {inst : Instruction} (hinst : block[slot]? = some inst)
    {state state' : Resource → V} (h : ∀ r ∈ inst.dataReads, state r = state' r) {r : Resource}
    (hr : r ∈ inst.dataWrites) : runSlot m block state slot r = runSlot m block state' slot r := by
  unfold runSlot
  rw [hinst]
  simp only [dif_pos hr]
  congr 1
  funext read
  exact h read.1 read.2

/-- **Instructions without a conflict commute.** Compared resource by resource: one that neither writes is
unchanged, and one that is written by the first is not written by the second, which does not change what the
first reads either. -/
theorem runSlot_comm {i j : Slot} (h : ¬ ConflictAt block i j) (state : Resource → V) :
    runSlot m block (runSlot m block state i) j = runSlot m block (runSlot m block state j) i := by
  have hi : ∀ {a b r}, block[i]? = some a → block[j]? = some b → r ∈ a.dataWrites →
      r ∉ b.dataReads ∧ r ∉ b.dataWrites := by
    intro a b r ha hb hr
    exact ⟨fun hr' => h ⟨a, b, ha, hb, Or.inl ⟨r, hr, Or.inl hr'⟩⟩,
      fun hr' => h ⟨a, b, ha, hb, Or.inl ⟨r, hr, Or.inr hr'⟩⟩⟩
  have hj : ∀ {a b r}, block[i]? = some a → block[j]? = some b → r ∈ b.dataWrites →
      r ∉ a.dataReads ∧ r ∉ a.dataWrites := by
    intro a b r ha hb hr
    exact ⟨fun hr' => h ⟨a, b, ha, hb, Or.inr ⟨r, hr', hr⟩⟩,
      fun hr' => (hi ha hb hr').2 hr⟩
  funext r
  by_cases hwi : ∃ a, block[i]? = some a ∧ r ∈ a.dataWrites
  · -- written by `i`: `j` changes neither the result nor what `i` reads
    obtain ⟨a, ha, hr⟩ := hwi
    rw [runSlot_of_not_written fun b hb => (hi ha hb hr).2]
    refine runSlot_congr ha (fun read hread => ?_) hr
    exact (runSlot_of_not_written (fun b hb hw => (hj ha hb hw).1 hread) state).symm
  · have hnoti : ∀ a, block[i]? = some a → r ∉ a.dataWrites := fun a ha hr => hwi ⟨a, ha, hr⟩
    rw [runSlot_of_not_written hnoti]
    by_cases hwj : ∃ b, block[j]? = some b ∧ r ∈ b.dataWrites
    · obtain ⟨b, hb, hr⟩ := hwj
      refine runSlot_congr hb (fun read hread => ?_) hr
      exact runSlot_of_not_written (fun a ha hw => (hi ha hb hw).1 hread) state
    · have hnotj : ∀ b, block[j]? = some b → r ∉ b.dataWrites := fun b hb hr => hwj ⟨b, hb, hr⟩
      rw [runSlot_of_not_written hnotj, runSlot_of_not_written hnotj, runSlot_of_not_written hnoti]

/-- An instruction moves behind others that it has no conflict with. -/
theorem runSlots_cons_eq_concat {slot : Slot} {slots : List Slot}
    (h : ∀ s ∈ slots, ¬ ConflictAt block s slot) (state : Resource → V) :
    runSlots m block (slot :: slots) state = runSlots m block (slots ++ [slot]) state := by
  induction slots generalizing state with
  | nil => rfl
  | cons s rest ih =>
    have hswap := runSlot_comm (m := m) (h s List.mem_cons_self) state
    calc runSlots m block (slot :: s :: rest) state
        = runSlots m block rest (runSlot m block (runSlot m block state slot) s) := rfl
      _ = runSlots m block (slot :: rest) (runSlot m block state s) := by rw [← hswap]; rfl
      _ = runSlots m block (rest ++ [slot]) (runSlot m block state s) :=
          ih (fun s' hs' => h s' (List.mem_cons_of_mem _ hs')) _
      _ = runSlots m block (s :: rest ++ [slot]) state := rfl

/-- So the instruction may as well run after all those behind it. -/
theorem runSlots_move_last {n : Slot} {early late : List Slot}
    (h : ∀ s ∈ late, ¬ ConflictAt block s n) (state : Resource → V) :
    runSlots m block (early ++ n :: late) state =
      runSlot m block (runSlots m block (early ++ late) state) n := by
  rw [runSlots_append, runSlots_cons_eq_concat h, runSlots_append, runSlots_append]
  rfl

/-- The same seen from another instruction: what it reads does not depend on whether the last one, which
it has no conflict with, has moved past it. -/
theorem runSlots_before_move_last {i n : Slot} {inst : Instruction} {early late : List Slot}
    (hinst : block[i]? = some inst) (hne : i ≠ n) (hmem : i ∈ early ++ late)
    (h : ∀ s ∈ late, ¬ ConflictAt block s n) (state : Resource → V) {r : Resource}
    (hr : r ∈ inst.dataReads) :
    runSlots m block (before (early ++ n :: late) i) state r =
      runSlots m block (before (early ++ late) i) state r := by
  by_cases hi : i ∈ early
  · rw [before_append_of_mem hi, before_append_of_mem hi]
  · -- what comes before `i` contains `n`, which writes nothing that `i` reads
    have hlate : i ∈ late := (List.mem_append.mp hmem).resolve_left hi
    have hmid : ∀ s ∈ before late i, ¬ ConflictAt block s n := fun s hs => h s (mem_of_mem_before hs)
    rw [before_append_of_not_mem hi, before_append_of_not_mem hi, before_cons_of_ne hne.symm,
      runSlots_move_last hmid]
    refine runSlot_of_not_written (fun a ha hw => ?_) _
    exact h i hlate ⟨inst, a, hinst, ha, Or.inr ⟨r, hr, hw⟩⟩

omit m block in
/-- Without its last instruction, an order of a block is one of the block that is shorter by one. -/
theorem perm_range_of_remove {n : Nat} {early late : List Slot}
    (h : (early ++ n :: late).Perm (List.range (n + 1))) : (early ++ late).Perm (List.range n) := by
  refine List.Perm.cons_inv (a := n) ?_
  refine (List.perm_middle.symm.trans h).trans ?_
  rw [List.range_succ]
  exact List.perm_append_singleton n _

/-- **An order that keeps conflicting instructions in program order runs as program order does.** The
final states agree, and every instruction finds the same values in what it reads. The induction is on the
length of the block: the last instruction moves to the end, past instructions that it has no conflict
with. -/
theorem runSlots_eq_of_pairwise (init : Resource → V) {n : Nat} {order : List Slot}
    (hperm : order.Perm (List.range n))
    (hkeep : order.Pairwise fun j i => i < j → ¬ ConflictAt block i j) :
    runSlots m block order init = runSlots m block (List.range n) init ∧
      ∀ i inst, i < n → block[i]? = some inst → ∀ r ∈ inst.dataReads,
        runSlots m block (before order i) init r = runSlots m block (List.range i) init r := by
  induction n generalizing order with
  | zero =>
    rw [List.range_zero] at hperm
    rw [hperm.eq_nil]
    exact ⟨rfl, fun i inst hi => absurd hi (Nat.not_lt_zero i)⟩
  | succ n ih =>
    have hnodup : order.Nodup := hperm.nodup_iff.mpr List.nodup_range
    obtain ⟨late, horder, hfront, hlate⟩ := exists_eq_before_append hnodup
      (hperm.mem_iff.mpr (List.mem_range.mpr (Nat.lt_succ_self n)))
    generalize hearly : before order n = early at horder hfront
    subst horder
    -- all slots behind the last instruction are earlier in the program, so the order says they do not conflict
    -- with it
    have hfree : ∀ s ∈ late, ¬ ConflictAt block s n := by
      intro s hs
      have hlt : s < n + 1 := List.mem_range.mp
        (hperm.mem_iff.mp (List.mem_append_right _ (List.mem_cons_of_mem _ hs)))
      have hne : s ≠ n := fun heq => hlate (heq ▸ hs)
      exact (List.pairwise_cons.mp (List.pairwise_append.mp hkeep).2.1).1 s hs
        (Nat.lt_of_le_of_ne (Nat.le_of_lt_succ hlt) hne)
    have hperm' := perm_range_of_remove hperm
    have hkeep' : (early ++ late).Pairwise fun j i => i < j → ¬ ConflictAt block i j :=
      hkeep.sublist (List.Sublist.append_left (List.sublist_cons_self n late) early)
    obtain ⟨hrun, hsees⟩ := ih hperm' hkeep'
    constructor
    · rw [runSlots_move_last hfree, hrun, List.range_succ, runSlots_append]
      rfl
    · intro i inst hi hinst r hr
      rcases Nat.lt_succ_iff_lt_or_eq.mp hi with hlt | rfl
      · rw [← hsees i inst hlt hinst r hr]
        exact runSlots_before_move_last hinst (Nat.ne_of_lt hlt)
          (hperm'.mem_iff.mpr (List.mem_range.mpr hlt)) hfree init hr
      · -- the last instruction itself: what runs after it in the schedule writes nothing that it reads
        rw [hearly, ← hrun, runSlots_append]
        refine (runSlots_of_not_written (fun s hs a ha hw => ?_) _).symm
        exact hfree s hs ⟨a, inst, ha, hinst, Or.inl ⟨r, hw, Or.inl hr⟩⟩

end Running

/-- **Reordering keeps the meaning of data.** Whatever the instructions compute, a schedule runs every
instruction once; each finds in what it reads the values that it finds in program order, and the final
states agree. -/
theorem scheduleBlock_preserves_data {model : MachineModel} {options : Options}
    {block : List Instruction} {s : BlockSchedule} (henabled : options.enabled = true)
    (h : scheduleBlock model options block = .ok s) {V : Type u} (m : Meaning V)
    (init : Resource → V) :
    s.order.Perm (List.range block.length) ∧
      runSlots m block s.order init = runSlots m block (List.range block.length) init ∧
      ∀ i inst, block[i]? = some inst → ∀ r ∈ inst.dataReads,
        runSlots m block (before s.order i) init r = runSlots m block (List.range i) init r := by
  have hs := scheduled_of_scheduleBlock henabled h
  -- a conflict between two slots is one between two entries of the log
  have hkeep : s.order.Pairwise fun j i => i < j → ¬ ConflictAt block i j := by
    refine hs.keeps_conflicts.imp ?_
    intro j i hij hlt hconflict
    obtain ⟨a, c, ha, hc, hdata, hres, hw⟩ := hconflict.exists_accesses
    exact hij a c ha hc hdata hres hw hlt
  obtain ⟨hrun, hsees⟩ := runSlots_eq_of_pairwise (m := m) init hs.order_perm hkeep
  refine ⟨hs.order_perm, hrun, ?_⟩
  intro i inst hinst
  exact hsees i inst (List.getElem?_eq_some_iff.mp hinst).1 hinst

/-- The meaning in which a value is its own history: the slots that have led to it. -/
def provenance : Meaning (List Slot) :=
  fun slot inst reads _ => slot :: inst.dataReads.attach.flatMap reads

/-- Two chains through memory, of which the second is the longer, and a delimiter. -/
def twoChains : List Instruction :=
  [{ mnemonic := .mov, operands := .immToReg 1 .edx },
   { mnemonic := .mov, operands := .regToMem .edx (.virtualReg .ebp 0) },
   { mnemonic := .mov, operands := .memToReg (.unknown .esi 0) .ecx, isVolatile := true },
   { mnemonic := .imul, operands := .regToReg .ecx .eax },
   { mnemonic := .mov, operands := .regToMem .eax (.unknown .edi 0) },
   { mnemonic := .ret }]

/-- The longer chain goes first, and every value has the history that it has in program order. -/
theorem scheduleBlock_preserves_provenance :
    ({} : Options).enabled = true ∧ ∃ s, scheduleBlock Atom.model {} twoChains = .ok s ∧
      s.order = [2, 0, 3, 1, 4, 5] ∧
      runSlots provenance twoChains s.order (fun _ => []) =
        runSlots provenance twoChains (List.range 6) (fun _ => []) ∧
      ∀ i inst, twoChains[i]? = some inst → ∀ r ∈ inst.dataReads,
        runSlots provenance twoChains (before s.order i) (fun _ => []) r =
          runSlots provenance twoChains (List.range i) (fun _ => []) r := by
  have hresult : (scheduleBlock Atom.model {} twoChains).map (·.order) = .ok [2, 0, 3, 1, 4, 5] := by
    decide +kernel
  obtain ⟨s, hs, horder⟩ := Except.map_eq_ok_iff.mp hresult
  obtain ⟨_, hrun, hsees⟩ := scheduleBlock_preserves_data rfl hs provenance fun _ => []
  exact ⟨rfl, s, hs, horder, hrun, hsees⟩

end DualIssue
