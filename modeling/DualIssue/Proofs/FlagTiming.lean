import DualIssue.Proofs.FlagFlow
import DualIssue.Proofs.Outcome

/-!
# When flags are written and read

Writers of the flags get no edges among themselves until a reader or the end of the block puts them before
the last one. All the same each of them issues in time: in a strictly earlier cycle than the readers below it
and than the writer that they see, and the last writer of a block issues last, so its flags are live out.

This holds of the instructions that are known to read the flags. A conditional move from memory does, but it
is listed as a writer: with another writer above and below it floats, and it can issue before the comparison
whose outcome it should use.

* **`LastFlagWriter`**: the nearest writer above a slot.
* **`flagWriters_issue_in_time`**: writers issue before the readers below them, the nearest writer last.
* **`Instruction.consumesFlags`**: the instructions whose effect depends on the flags.
* **`flagConsumers_wait`**: such an instruction issues after all writers above it, unless it is a conditional
  move from memory that floats. **`conditionalLoad_overtakes_comparison`** is a block where one does not.
-/

namespace DualIssue

open DualIssue.Graph

/-! ## Writers and readers

Here the nearest writer above a slot is described by itself, without the order of issue, and shown to be the one
that `flagSource` finds in program order. The paths of the closed graph then turn into cycles of issue. -/

/-- The last slot before the bound that writes the flags. -/
def LastFlagWriter (block : List Instruction) (bound w : Slot) : Prop :=
  w < bound ∧ writesFlagsAt block w = true ∧ ∀ k, k < bound → writesFlagsAt block k = true → k ≤ w

/-- The nearest writer above a bound is the last of the writers in program order. -/
theorem lastFlagWriter_iff {block : List Instruction} {bound w : Slot} :
    LastFlagWriter block bound w ↔
      ((List.range bound).filter (writesFlagsAt block)).getLast? = some w := by
  rw [getLast?_filter_eq_some_iff List.nodup_range, List.mem_range]
  refine and_congr_right fun hlt => and_congr_right fun _ => ?_
  rw [before_range hlt]
  constructor
  · intro h k hk hwrites hne
    exact List.mem_range.mpr (Nat.lt_of_le_of_ne (h k (List.mem_range.mp hk) hwrites) hne)
  · intro h k hk hwrites
    by_cases heq : k = w
    · exact Nat.le_of_eq heq
    · exact Nat.le_of_lt (List.mem_range.mp (h k (List.mem_range.mpr hk) hwrites heq))

theorem exists_lastFlagWriter {block : List Instruction} {bound k : Slot} (hk : k < bound)
    (hwrites : writesFlagsAt block k = true) : ∃ w, LastFlagWriter block bound w := by
  have hmem : k ∈ (List.range bound).filter (writesFlagsAt block) :=
    List.mem_filter.mpr ⟨List.mem_range.mpr hk, hwrites⟩
  exact ⟨_, lastFlagWriter_iff.mpr (List.getLast?_eq_some_getLast (List.ne_nil_of_mem hmem))⟩

section Schedule

variable {model : MachineModel} {options : Options} {block : List Instruction} {s : BlockSchedule}
  (henabled : options.enabled = true) (h : scheduleBlock model options block = .ok s)

include henabled h

/-- The last writer of a block issues after all others, since closing the block has put it there
(`reaches_of_last_writer`). -/
theorem issuesBefore_lastFlagWriter {w k : Slot} (hw : LastFlagWriter block block.length w)
    (hk : writesFlagsAt block k = true) (hne : k ≠ w) : s.IssuesBefore k w := by
  have hcloses := (scheduled_of_scheduleBlock henabled h).closes
  refine issuesBefore_of_reaches henabled h (reaches_of_last_writer hcloses ?_ ?_) hne hw.1
  · rw [flagWriterSlots_flagTrace]
    exact lastFlagWriter_iff.mp hw
  · rw [flagWriterSlots_flagTrace]
    exact List.mem_filter.mpr ⟨List.mem_range.mpr (lt_length_of_writesFlagsAt hk), hk⟩

section Reader

variable {j : Slot} (hj : readsFlagsAt block j = true)

include hj

/-- The writer that a reader sees issues before it, and after the writers above. These are the two paths of
`reaches_of_flagSource`. -/
theorem issuesBefore_of_sees {w : Slot} (hw : LastFlagWriter block j w) :
    s.IssuesBefore w j ∧ ∀ i, i < j → writesFlagsAt block i = true → i ≠ w → s.IssuesBefore i w := by
  have hlt := lt_length_of_readsFlagsAt hj
  have hsource : flagSource block (List.range block.length) j = some w := by
    rw [flagSource, before_range hlt]
    exact lastFlagWriter_iff.mp hw
  have hcloses := (scheduled_of_scheduleBlock henabled h).closes
  obtain ⟨hread, hearlier⟩ := reaches_of_flagSource hcloses hj hsource
  refine ⟨issuesBefore_of_reaches henabled h hread (Nat.ne_of_lt hw.1) hlt, ?_⟩
  intro i hi hwrites hne
  exact issuesBefore_of_reaches henabled h (hearlier i hi hwrites) hne (Nat.lt_trans hw.1 hlt)

/-- **A reader issues after every writer above it**: after the nearest one, and any other writer issues before
that. -/
theorem issuesBefore_reader {i : Slot} (hi : i < j) (hwrites : writesFlagsAt block i = true) :
    s.IssuesBefore i j := by
  obtain ⟨w, hw⟩ := exists_lastFlagWriter hi hwrites
  obtain ⟨hread, hearlier⟩ := issuesBefore_of_sees henabled h hj hw
  by_cases heq : i = w
  · rw [heq]
    exact hread
  · exact (hearlier i hi hwrites heq).trans hread

end Reader

end Schedule

/-- **Writers of the flags issue in time.** In every schedule the last writer of the block issues in a strictly
later cycle than all others, so the flags that the block leaves behind are right. Every reader issues in a
strictly later cycle than each writer above it, and of these the nearest issues last. -/
theorem flagWriters_issue_in_time {model : MachineModel} {options : Options}
    {block : List Instruction} {s : BlockSchedule} (henabled : options.enabled = true)
    (h : scheduleBlock model options block = .ok s) :
    (∀ w, LastFlagWriter block block.length w →
      ∀ k, writesFlagsAt block k = true → k ≠ w → s.IssuesBefore k w) ∧
    ∀ j, readsFlagsAt block j = true →
      (∀ i, i < j → writesFlagsAt block i = true → s.IssuesBefore i j) ∧
      ∀ w, LastFlagWriter block j w →
        ∀ i, i < j → writesFlagsAt block i = true → i ≠ w → s.IssuesBefore i w := by
  constructor
  · intro w hw k hk hne
    exact issuesBefore_lastFlagWriter henabled h hw hk hne
  · intro j hj
    constructor
    · intro i hi hwrites
      exact issuesBefore_reader henabled h hj hi hwrites
    · intro w hw
      exact (issuesBefore_of_sees henabled h hj hw).2

/-- Two writers before a conditional move, a third one after it, and a jump that reads the flags of that. -/
def flagsReadTwice : List Instruction :=
  [{ mnemonic := .add, operands := .immToReg 1 .eax },
   { mnemonic := .sub, operands := .immToReg 1 .ecx },
   { mnemonic := .cmov .e, operands := .regToReg .edx .ebx },
   { mnemonic := .add, operands := .immToReg 1 .esi },
   { mnemonic := .jcc .ne, operands := .imm 0 }]

/-- Five instructions without data in common take five cycles, for the sake of the flags. -/
theorem flagWriters_issue_in_time_on_flagsReadTwice :
    ({} : Options).enabled = true ∧
      ∃ s, scheduleBlock Atom.model {} flagsReadTwice = .ok s ∧
        LastFlagWriter flagsReadTwice 5 3 ∧ s.IssuesBefore 0 3 ∧ s.IssuesBefore 1 3 ∧
        readsFlagsAt flagsReadTwice 2 = true ∧ s.IssuesBefore 0 2 ∧ s.IssuesBefore 1 2 ∧
        LastFlagWriter flagsReadTwice 2 1 ∧ s.IssuesBefore 0 1 := by
  have hresult : (scheduleBlock Atom.model {} flagsReadTwice).map (·.order) = .ok [0, 1, 2, 3, 4] := by
    decide +kernel
  obtain ⟨s, hs, _⟩ := Except.map_eq_ok_iff.mp hresult
  have hlast : LastFlagWriter flagsReadTwice 5 3 := by
    unfold LastFlagWriter
    decide
  have hsees : LastFlagWriter flagsReadTwice 2 1 := by
    unfold LastFlagWriter
    decide
  have hreads : readsFlagsAt flagsReadTwice 2 = true := by decide
  obtain ⟨hlive, hreaders⟩ := flagWriters_issue_in_time rfl hs
  obtain ⟨hbefore, hnearest⟩ := hreaders 2 hreads
  exact ⟨rfl, s, hs, hlast, hlive 3 hlast 0 (by decide) (by decide),
    hlive 3 hlast 1 (by decide) (by decide), hreads, hbefore 0 (by decide) (by decide),
    hbefore 1 (by decide) (by decide), hsees, hnearest 1 hsees 0 (by decide) (by decide) (by decide)⟩

/-! ## Consumers

Whether an instruction depends on the flags is a matter of its mnemonic; whether the tracker knows is a matter
of its accesses. The two agree for all forms that the Atom model covers, except for one. -/

def Shape.hasTwoOperands : Shape → Bool
  | .immToReg | .immToMem | .regToReg | .memToReg | .regToMem | .immRegReg => true
  | .none | .imm | .reg | .mem => false

namespace Instruction

/-- Does the effect of the instruction depend on the flags? So it is with conditional jumps, and with additions
and subtractions with carry and conditional moves, all of which have two operands. -/
def consumesFlags (inst : Instruction) : Bool :=
  match inst.mnemonic with
  | .jcc _ => true
  | .adc | .sbb | .cmov _ => inst.shape.hasTwoOperands
  | _ => false

def isConditionalLoad (inst : Instruction) : Bool :=
  match inst.mnemonic with
  | .cmov _ => inst.shape = .memToReg
  | _ => false

/-- A conditional move from memory is listed as arithmetic on memory, which writes the flags. By cases over
mnemonics and operand forms, of which one is left. -/
theorem writesFlags_of_isConditionalLoad {inst : Instruction} (h : inst.isConditionalLoad = true) :
    inst.writesFlags = true := by
  obtain ⟨mnemonic, operands, size, isVolatile⟩ := inst
  cases mnemonic with
  | cmov cond =>
    cases operands with
    | memToReg => rfl
    | _ => cases h
  | _ => cases h

/-- **The consumers that the Atom model covers read the flags**, but for conditional moves from memory. One case
for each mnemonic that consumes flags, and in it one for each form: the form has a read of the flags, or the
model has no entry for it, or it is the excepted one. -/
theorem readsFlags_of_consumesFlags {inst : Instruction} (h : inst.consumesFlags = true)
    (hmodel : Atom.model inst.mnemonic inst.shape ≠ none) (hload : ¬ inst.isConditionalLoad = true) :
    inst.readsFlags = true := by
  obtain ⟨mnemonic, operands, size, isVolatile⟩ := inst
  cases mnemonic with
  | jcc cond =>
    cases operands with
    | none | imm => rfl
    | _ => exact absurd rfl hmodel
  | adc | sbb =>
    cases operands with
    | none | imm | reg | mem => cases h
    | _ => rfl
  | cmov cond =>
    cases operands with
    | none | imm | reg | mem => cases h
    | regToReg | immRegReg => rfl
    | memToReg => exact absurd rfl hload
    | immToReg | immToMem | regToMem => exact absurd rfl hmodel
  | _ => cases h

end Instruction

/-- **Consumers of the flags wait for them.** On the Atom model an instruction whose effect depends on the flags
issues in a strictly later cycle than every writer above it. The exception is a conditional move from memory
with nothing but writes around it: the tracker takes it for one more write and lets it float. All other
consumers are known as readers (`readsFlags_of_consumesFlags`), or are writes that do not float
(`reaches_of_not_floating`). -/
theorem flagConsumers_wait {options : Options} {block : List Instruction} {s : BlockSchedule}
    (henabled : options.enabled = true) (h : scheduleBlock Atom.model options block = .ok s)
    {j : Slot} {inst : Instruction} (hinst : block[j]? = some inst) (hconsumes : inst.consumesFlags = true)
    (hsettled : ¬ (inst.isConditionalLoad = true ∧ Floating block j))
    {i : Slot} (hi : i < j) (hwrites : writesFlagsAt block i = true) : s.IssuesBefore i j := by
  by_cases hload : inst.isConditionalLoad = true
  · -- a write that does not float comes after every touch above it
    have hj : writesFlagsAt block j = true := by
      rw [writesFlagsAt, hinst]
      exact inst.writesFlags_of_isConditionalLoad hload
    have htouch := mem_flagTrace_iff.mpr (Or.inr ⟨rfl, hwrites⟩)
    have hcloses := (scheduled_of_scheduleBlock henabled h).closes
    have hreaches := reaches_of_not_floating hcloses htouch hi hj fun hfloat => hsettled ⟨hload, hfloat⟩
    exact issuesBefore_of_reaches henabled h hreaches (Nat.ne_of_lt hi) (lt_length_of_writesFlagsAt hj)
  · -- a scheduled block has instructions only that the model covers
    have hmodel : Atom.model inst.mnemonic inst.shape ≠ none := fun hnone =>
      not_misplaced_of_scheduleBlock henabled h j ⟨inst, hinst, Or.inl hnone⟩
    have hj : readsFlagsAt block j = true := by
      rw [readsFlagsAt, hinst]
      exact inst.readsFlags_of_consumesFlags hconsumes hmodel hload
    exact issuesBefore_reader henabled h hj hi hwrites

/-- A comparison that waits for a slow conversion, a conditional move from memory that depends on it, and an
addition. -/
def conditionalLoad : List Instruction :=
  [{ mnemonic := .cvttsd2si, operands := .regToReg .xmm0 .eax },
   { mnemonic := .cmp, operands := .immToReg 0 .eax },
   { mnemonic := .cmov .e, operands := .memToReg (.unknown .edi 0) .ebx },
   { mnemonic := .add, operands := .immToReg 1 .ecx }]

/-- Without the addition the conditional move is the last write, and waits. -/
theorem flagConsumers_wait_on_last_conditionalLoad :
    ({} : Options).enabled = true ∧ ¬ Floating (conditionalLoad.take 3) 2 ∧
      ∃ s, scheduleBlock Atom.model {} (conditionalLoad.take 3) = .ok s ∧
        (∃ inst, (conditionalLoad.take 3)[2]? = some inst ∧ inst.consumesFlags = true ∧
          inst.isConditionalLoad = true) ∧
        writesFlagsAt (conditionalLoad.take 3) 1 = true ∧ s.IssuesBefore 1 2 := by
  have hresult : (scheduleBlock Atom.model {} (conditionalLoad.take 3)).map (·.order) = .ok [0, 1, 2] := by
    decide +kernel
  obtain ⟨s, hs, _⟩ := Except.map_eq_ok_iff.mp hresult
  have hnot : ¬ Floating (conditionalLoad.take 3) 2 := by
    rintro ⟨i, j, hinfix⟩
    -- to float takes three touches
    have htouches : (flagTrace (conditionalLoad.take 3)).length = 2 := by decide
    have hlength : 3 ≤ (flagTrace (conditionalLoad.take 3)).length := hinfix.length_le
    omega
  exact ⟨rfl, hnot, s, hs, ⟨_, rfl, rfl, rfl⟩, rfl,
    flagConsumers_wait rfl hs rfl rfl (fun hfloat => hnot hfloat.2) (by decide) rfl⟩

/-- **A consumer that does not wait.** With the addition the conditional move floats. It issues in the cycle
after the conversion, seven cycles before the comparison whose outcome it should use. -/
theorem conditionalLoad_overtakes_comparison :
    Floating conditionalLoad 2 ∧
      ∃ s, scheduleBlock Atom.model {} conditionalLoad = .ok s ∧
        (∃ inst, conditionalLoad[2]? = some inst ∧ inst.consumesFlags = true) ∧
        writesFlagsAt conditionalLoad 1 = true ∧
        s.cycleAt 1 = some 8 ∧ s.cycleAt 2 = some 1 ∧ ¬ s.IssuesBefore 1 2 := by
  have hresult : (scheduleBlock Atom.model {} conditionalLoad).map
      (fun s => (s.cycleAt 1, s.cycleAt 2)) = .ok (some 8, some 1) := by
    decide +kernel
  obtain ⟨s, hs, hcycles⟩ := Except.map_eq_ok_iff.mp hresult
  obtain ⟨hcomparison, hmove⟩ := Prod.mk.inj hcycles
  refine ⟨⟨1, 3, by decide⟩, s, hs, ⟨_, rfl, rfl⟩, rfl, hcomparison, hmove, ?_⟩
  rintro ⟨earlier, later, hearlier, hlater, hlt⟩
  cases hcomparison.symm.trans hearlier
  cases hmove.symm.trans hlater
  exact absurd hlt (by decide)

end DualIssue
