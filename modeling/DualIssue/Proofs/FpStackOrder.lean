import DualIssue.Machine.Atom
import DualIssue.Proofs.ConflictOrder

/-!
# x87 code is serialised

The registers of the x87 stack are one resource. Every x87 instruction ends its accesses by reading and writing it,
in every operand form and whatever `st0` operands come before that, so x87 instructions conflict with each other and
with all else that names `st0`.

* **`Scheduled.writers_in_program_order`**: slots that all write one resource keep their program order.
* **`x87_keeps_program_order`**: the case of the x87 stack, with the cycles of issue.
-/

namespace DualIssue

open DualIssue.Tracker

/-! ## Writers of one resource

If all slots of a kind write the same resource, any two of them conflict, so a schedule keeps all of them in
program order. -/

/-- Slots that all write one resource keep their program order. Filtered, the order ascends (`keeps_conflicts`)
and so does the range; two ascending lists with the same members are equal. -/
theorem Scheduled.writers_in_program_order {latencies : LatencyTable} {block : List Instruction}
    {s : BlockSchedule} (h : Scheduled latencies block s) (resource : Resource) {writes : Slot → Bool}
    (hdata : resource.isTracked = true ∧ resource ≠ .flags)
    (hwrites : ∀ slot, writes slot = true →
      ∃ a, (slot, a) ∈ accessLog block ∧ a.resource = resource ∧ a.role.writes = true) :
    s.order.filter writes = (List.range block.length).filter writes := by
  have hnodup : s.order.Nodup := h.order_perm.nodup_iff.mpr List.nodup_range
  -- of two writers in the order the second is not the earlier one, and not the same
  have hsorted : (s.order.filter writes).Pairwise (· < ·) := by
    refine List.pairwise_filter.mpr ((h.keeps_conflicts.and hnodup).imp ?_)
    rintro first second ⟨hkeeps, hne⟩ hfirst hsecond
    obtain ⟨a, ha, hres, _⟩ := hwrites second hsecond
    obtain ⟨c, hc, hres', hw⟩ := hwrites first hfirst
    have hnot := hkeeps a c ha hc (by rw [Access.IsData, hres]; exact hdata) (hres.trans hres'.symm)
      (Or.inr hw)
    exact Nat.lt_of_le_of_ne (Nat.le_of_not_lt hnot) hne
  refine (h.order_perm.filter writes).eq_of_pairwise ?_ hsorted (List.pairwise_lt_range.filter writes)
  intro a b _ _ hab hba
  exact absurd hba (Nat.lt_asymm hab)

/-! ## The x87 stack

An x87 instruction writes the stack as a whole. Any other instruction that names `st0` at least reads it, and
that is enough for a conflict with an x87 instruction. -/

/-- The instruction takes part in the order of the x87 stack, by its mnemonic or by an access. -/
def Instruction.UsesFpStack (inst : Instruction) : Prop :=
  inst.mnemonic.isX87 = true ∨ ∃ a ∈ inst.accesses, a.resource = .fpStack

/-- An x87 instruction lists an access that reads and writes the stack, after those of its operands. -/
theorem Instruction.fpStack_mem_accesses {inst : Instruction} (h : inst.mnemonic.isX87 = true) :
    .plain .fpStack .useDefine ∈ inst.accesses := by
  rw [accesses, if_pos h]
  exact List.mem_append_right _ (List.mem_singleton.mpr rfl)

/-- Whoever takes part in the order of the stack has an access to it, and an x87 instruction has one that
writes. -/
theorem Instruction.UsesFpStack.exists_access {inst : Instruction} (h : inst.UsesFpStack) :
    ∃ a ∈ inst.accesses, a.resource = .fpStack ∧ (inst.mnemonic.isX87 = true → a.role.writes = true) := by
  by_cases hx87 : inst.mnemonic.isX87 = true
  · exact ⟨_, fpStack_mem_accesses hx87, rfl, fun _ => rfl⟩
  · obtain ⟨a, ha, hres⟩ := h.resolve_left hx87
    exact ⟨a, ha, hres, fun hc => absurd hc hx87⟩

/-- Does the slot hold an x87 instruction? -/
def isX87At (block : List Instruction) (slot : Slot) : Bool := block[slot]?.any (·.mnemonic.isX87)

theorem isX87At_iff {block : List Instruction} {slot : Slot} :
    isX87At block slot = true ↔ ∃ inst, block[slot]? = some inst ∧ inst.mnemonic.isX87 = true := by
  unfold isX87At
  cases block[slot]? <;> simp

theorem BlockSchedule.IssuesBefore.cycleAt_ne {s : BlockSchedule} {first second : Slot}
    (h : s.IssuesBefore first second) : s.cycleAt first ≠ s.cycleAt second := by
  obtain ⟨earlier, later, hearlier, hlater, hlt⟩ := h
  rw [hearlier, hlater]
  intro heq
  cases heq
  exact Nat.lt_irrefl _ hlt

/-- **x87 code is serialised.** Of two instructions that use the x87 stack, one of them with an x87 mnemonic,
the first issues in a strictly earlier cycle. So the x87 instructions issue in program order, no two in one
cycle. The first part is `issuesBefore_of_conflict`; the second is `writers_in_program_order` for the stack, and
the third is the first part for two x87 instructions. -/
theorem x87_keeps_program_order {model : MachineModel} {options : Options} {block : List Instruction}
    {s : BlockSchedule} (henabled : options.enabled = true)
    (h : scheduleBlock model options block = .ok s) :
    (∀ i j first second, i < j → block[i]? = some first → block[j]? = some second →
      first.UsesFpStack → second.UsesFpStack →
      first.mnemonic.isX87 = true ∨ second.mnemonic.isX87 = true → s.IssuesBefore i j) ∧
    s.order.filter (isX87At block) = (List.range block.length).filter (isX87At block) ∧
    ∀ i j, isX87At block i = true → isX87At block j = true → i ≠ j → s.cycleAt i ≠ s.cycleAt j := by
  have hbefore : ∀ i j first second, i < j → block[i]? = some first → block[j]? = some second →
      first.UsesFpStack → second.UsesFpStack →
      first.mnemonic.isX87 = true ∨ second.mnemonic.isX87 = true → s.IssuesBefore i j := by
    intro i j first second hlt hi hj hfirst hsecond hx87
    obtain ⟨a, ha, hres, hwrites⟩ := hfirst.exists_access
    obtain ⟨c, hc, hres', hwrites'⟩ := hsecond.exists_access
    -- both accesses are in the log, and one of them writes
    have hai : (i, a) ∈ accessLog block := mem_accessLog_iff.mpr ⟨first, hi, List.mem_append_left _ ha⟩
    have hcj : (j, c) ∈ accessLog block := mem_accessLog_iff.mpr ⟨second, hj, List.mem_append_left _ hc⟩
    refine issuesBefore_of_conflict henabled h hai hcj hlt ?_ (hres.trans hres'.symm)
      (hx87.imp hwrites hwrites')
    rw [Access.IsData, hres]
    exact ⟨rfl, Resource.noConfusion⟩
  refine ⟨hbefore, ?_, ?_⟩
  · refine (scheduled_of_scheduleBlock henabled h).writers_in_program_order .fpStack
      ⟨rfl, Resource.noConfusion⟩ fun slot hslot => ?_
    obtain ⟨inst, hinst, hx87⟩ := isX87At_iff.mp hslot
    refine ⟨.plain .fpStack .useDefine, mem_accessLog_iff.mpr ⟨inst, hinst, ?_⟩, rfl, rfl⟩
    exact List.mem_append_left _ (Instruction.fpStack_mem_accesses hx87)
  · intro i j hi hj hne
    obtain ⟨first, hfirst, hx87⟩ := isX87At_iff.mp hi
    obtain ⟨second, hsecond, hx87'⟩ := isX87At_iff.mp hj
    rcases Nat.lt_or_gt_of_ne hne with hlt | hlt
    · exact (hbefore i j first second hlt hfirst hsecond (Or.inl hx87) (Or.inl hx87') (Or.inl hx87)).cycleAt_ne
    · exact (hbefore j i second first hlt hsecond hfirst (Or.inl hx87') (Or.inl hx87)
        (Or.inl hx87')).cycleAt_ne.symm

/-- A load onto the stack whose address comes late, an addition, a move from `st0` and a store, and an addition
that has nothing to do with them. -/
def lateStackLoad : List Instruction :=
  [{ mnemonic := .mov, operands := .immToReg 1 .eax },
   { mnemonic := .fld, operands := .memToReg (.unknown .eax 0) .st0 },
   { mnemonic := .fadd, operands := .memToReg (.virtualReg .edi 2) .st0 },
   { mnemonic := .mov, operands := .regToReg .st0 .ecx },
   { mnemonic := .fstp, operands := .regToMem .st0 (.virtualReg .edi 3) },
   { mnemonic := .add, operands := .regToReg .edx .ebx }]

/-- The move waits for the addition on the stack although it is no x87 instruction; the last addition goes ahead. -/
theorem x87_keeps_program_order_on_lateStackLoad :
    ({} : Options).enabled = true ∧ ∃ s, scheduleBlock Atom.model {} lateStackLoad = .ok s ∧
      s.order = [0, 5, 1, 2, 3, 4] ∧ s.IssuesBefore 2 3 ∧
      s.order.filter (isX87At lateStackLoad) = [1, 2, 4] ∧ s.cycleAt 1 ≠ s.cycleAt 2 := by
  have hresult : (scheduleBlock Atom.model {} lateStackLoad).map (·.order) = .ok [0, 5, 1, 2, 3, 4] := by
    decide +kernel
  obtain ⟨s, hs, horder⟩ := Except.map_eq_ok_iff.mp hresult
  obtain ⟨hbefore, hfilter, hcycles⟩ := x87_keeps_program_order rfl hs
  have hmove : Instruction.UsesFpStack { mnemonic := .mov, operands := .regToReg .st0 .ecx } :=
    Or.inr ⟨.plain .fpStack .use, by decide, rfl⟩
  refine ⟨rfl, s, hs, horder, ?_, hfilter, hcycles 1 2 rfl rfl (by decide)⟩
  exact hbefore 2 3 _ _ (by decide) rfl rfl (Or.inl rfl) hmove (Or.inl rfl)

end DualIssue
