import DualIssue.Access

/-!
# The accesses of an instruction

What holds of the access list of every instruction, whatever its form.

* **`flagRoles_accesses`**: an instruction reads the flags at most once and then writes them at most
  once.
* **`allTracked_accesses`**: all that it accesses is tracked.
-/

namespace DualIssue

/-! ## The flags of an instruction

The access list of an instruction is put together from parts: flags, registers, addresses, memory, and what a
mnemonic touches without naming it. Only few of them touch the flags. The simp lemmas erase all others, so that
for each form one statement about its own flags remains. -/

/-- How a list of accesses touches the flags, in order. -/
def flagRoles (accesses : List Access) : List Role :=
  (accesses.filter (·.resource = .flags)).map (·.role)

/-- Does the instruction read the flags? -/
def Instruction.readsFlags (inst : Instruction) : Bool :=
  inst.accesses.any fun a => a.resource = .flags && a.role.reads

/-- Does the instruction write the flags? -/
def Instruction.writesFlags (inst : Instruction) : Bool :=
  inst.accesses.any fun a => a.resource = .flags && a.role.writes

@[simp] theorem flagRoles_nil : flagRoles [] = [] := rfl

@[simp] theorem flagRoles_append (l l' : List Access) :
    flagRoles (l ++ l') = flagRoles l ++ flagRoles l' := by
  simp [flagRoles]

@[simp] theorem flagRoles_cons_flags (role : Role) (l : List Access) :
    flagRoles (.flags role :: l) = role :: flagRoles l := rfl

theorem flagRoles_cons_of_ne {access : Access} (h : access.resource ≠ .flags) (l : List Access) :
    flagRoles (access :: l) = flagRoles l := by
  rw [flagRoles, List.filter_cons_of_neg (by simpa using h)]
  rfl

theorem flagRoles_eq_nil {l : List Access} (h : ∀ access ∈ l, access.resource ≠ .flags) :
    flagRoles l = [] := by
  rw [flagRoles, List.filter_eq_nil_iff.mpr (fun a ha => by simpa using h a ha), List.map_nil]

theorem Resource.ofReg_ne_flags (r : Register) : Resource.ofReg r ≠ .flags := by
  cases r <;> exact Resource.noConfusion

@[simp] theorem flagRoles_cons_reg (r : Register) (role : Role) (l : List Access) :
    flagRoles (.reg r role :: l) = flagRoles l :=
  flagRoles_cons_of_ne (Resource.ofReg_ne_flags r) l

@[simp] theorem flagRoles_addressAccesses (mem : MemOperand) :
    flagRoles mem.addressAccesses = [] := by
  refine flagRoles_eq_nil fun access h => ?_
  obtain ⟨r, _, rfl⟩ := List.mem_map.mp h
  exact Resource.ofReg_ne_flags r

/-- Memory operands cover memory, in whatever class they are. -/
theorem MemOperand.ne_flags_of_mem_coveredResources {mem : MemOperand} {wide : Bool}
    {resource : Resource} (h : resource ∈ mem.coveredResources wide) : resource ≠ .flags := by
  unfold coveredResources at h
  rintro rfl
  cases hclass : mem.memClass <;> rw [hclass] at h <;> cases wide <;> simp at h

/-- A memory operand does not touch the flags, neither with its address nor with what it covers. -/
@[simp] theorem flagRoles_memAccesses (mem : MemOperand) (wide : Bool) (role : Role) :
    flagRoles (mem.accesses wide role) = [] := by
  rw [MemOperand.accesses, flagRoles_append, flagRoles_addressAccesses, List.nil_append]
  refine flagRoles_eq_nil fun access h => ?_
  obtain ⟨resource, hmem, rfl⟩ := List.mem_map.mp h
  exact MemOperand.ne_flags_of_mem_coveredResources hmem

@[simp] theorem flagRoles_accumulatorAccesses (m : Mnemonic) :
    flagRoles m.accumulatorAccesses = [] := by
  unfold Mnemonic.accumulatorAccesses
  split <;> simp

@[simp] theorem flagRoles_pushAccesses (m : Mnemonic) : flagRoles m.pushAccesses = [] := by
  unfold Mnemonic.pushAccesses
  split <;> rfl

/-- At most one read of the flags, and after it at most one write. -/
def ReadThenWrite (roles : List Role) : Prop :=
  ∃ reads writes : Bool, roles = (if reads then [.use] else []) ++ (if writes then [.define] else [])

theorem readThenWrite_nil : ReadThenWrite [] := ⟨false, false, rfl⟩

theorem readThenWrite_use : ReadThenWrite [.use] := ⟨true, false, rfl⟩

theorem readThenWrite_define : ReadThenWrite [.define] := ⟨false, true, rfl⟩

/-- Arithmetic reads the carry if it uses it, and then writes the flags if it is no move. -/
theorem readThenWrite_arithmeticFlags (m : Mnemonic) : ReadThenWrite (flagRoles m.arithmeticFlags) := by
  refine ⟨m.readsCarry, !m.isMove, ?_⟩
  unfold Mnemonic.arithmeticFlags
  cases m.readsCarry <;> cases m.isMove <;> rfl

/-- A form that reads memory does the same, with more mnemonics that leave the flags alone. -/
theorem readThenWrite_loadFormFlags (m : Mnemonic) : ReadThenWrite (flagRoles m.loadFormFlags) := by
  refine ⟨m.readsCarry, !(m.isMove || m.isConvert || m = .lea), ?_⟩
  unfold Mnemonic.loadFormFlags
  cases m.readsCarry <;> cases m.isMove || m.isConvert || m = .lea <;> rfl

/-- Between registers a conditional move reads the flags; the others do as arithmetic does, or nothing. -/
theorem readThenWrite_registerFormFlags (m : Mnemonic) :
    ReadThenWrite (flagRoles m.registerFormFlags) := by
  unfold Mnemonic.registerFormFlags
  split
  · exact readThenWrite_use
  · split
    · exact readThenWrite_nil
    · exact readThenWrite_arithmeticFlags m

/-- A form with at most one operand touches the flags once or not at all: a conditional jump reads them, and
whatever else touches them writes them. -/
theorem readThenWrite_implicitAccesses (m : Mnemonic) (keepsFlags : Bool) :
    ReadThenWrite (flagRoles (m.implicitAccesses keepsFlags)) := by
  unfold Mnemonic.implicitAccesses
  rw [flagRoles_append, flagRoles_append, flagRoles_accumulatorAccesses, flagRoles_pushAccesses,
    List.append_nil, List.append_nil]
  split
  · unfold Mnemonic.controlAccesses
    split
    · exact readThenWrite_use
    · exact readThenWrite_define
  · split
    · exact readThenWrite_nil
    · exact readThenWrite_define

theorem readThenWrite_registerFormAccesses (m : Mnemonic) (src dst : Register) :
    ReadThenWrite (flagRoles (Instruction.registerFormAccesses m src dst)) := by
  unfold Instruction.registerFormAccesses
  split
  · rw [flagRoles_accumulatorAccesses]
    exact readThenWrite_nil
  · simpa using readThenWrite_registerFormFlags m

theorem readThenWrite_loadFormAccesses (m : Mnemonic) (wide : Bool) (src : MemOperand)
    (dst : Register) : ReadThenWrite (flagRoles (Instruction.loadFormAccesses m wide src dst)) := by
  unfold Instruction.loadFormAccesses
  split
  · simpa using readThenWrite_nil
  · split <;> simpa using readThenWrite_loadFormFlags m

theorem readThenWrite_storeFormAccesses (m : Mnemonic) (wide : Bool) (src : Register)
    (dst : MemOperand) :
    ReadThenWrite (flagRoles (Instruction.storeFormAccesses m wide src dst)) := by
  unfold Instruction.storeFormAccesses
  split
  · simpa using readThenWrite_nil
  · split <;> split <;> simpa using readThenWrite_arithmeticFlags m

/-- Every form reads the flags at most once and then writes them at most once. One case for each form, by
the lemma about the part of it that concerns the flags. -/
theorem readThenWrite_formAccesses (m : Mnemonic) (wide : Bool) (operands : Operands) :
    ReadThenWrite (flagRoles (Instruction.formAccesses m wide operands)) := by
  cases operands with
  | none => exact readThenWrite_implicitAccesses m _
  | imm _ => exact readThenWrite_implicitAccesses m _
  | reg r => simpa [Instruction.formAccesses] using readThenWrite_implicitAccesses m _
  | mem mem => simpa [Instruction.formAccesses] using readThenWrite_implicitAccesses m _
  | immToReg _ dst => simpa [Instruction.formAccesses] using readThenWrite_arithmeticFlags m
  | immToMem _ dst => simpa [Instruction.formAccesses] using readThenWrite_arithmeticFlags m
  | regToReg src dst => exact readThenWrite_registerFormAccesses m src dst
  | immRegReg _ src dst => exact readThenWrite_registerFormAccesses m src dst
  | memToReg src dst => exact readThenWrite_loadFormAccesses m wide src dst
  | regToMem src dst => exact readThenWrite_storeFormAccesses m wide src dst

/-- Whether some access touches the flags in a certain way can be asked of the roles alone. Induction on the
accesses. -/
theorem any_flags_eq (accesses : List Access) (p : Role → Bool) :
    (accesses.any fun a => a.resource = .flags && p a.role) = (flagRoles accesses).any p := by
  induction accesses with
  | nil => rfl
  | cons a l ih =>
    rw [List.any_cons, ih]
    by_cases h : a.resource = .flags
    · simp [flagRoles, h]
    · simp [flagRoles_cons_of_ne h, h]

/-- **An instruction reads the flags at most once, and then writes them at most once.** The form has this shape
for some pair of bits (`readThenWrite_formAccesses`); these are the bits that the instruction reports, and the
access to the x87 stack adds nothing. -/
theorem flagRoles_accesses (inst : Instruction) :
    flagRoles inst.accesses =
      (if inst.readsFlags then [.use] else []) ++ (if inst.writesFlags then [.define] else []) := by
  have hform : flagRoles inst.accesses =
      flagRoles (Instruction.formAccesses inst.mnemonic inst.size.isWide inst.operands) := by
    rw [Instruction.accesses, flagRoles_append]
    split
    · exact List.append_nil _
    · exact List.append_nil _
  -- the two bits that the form gives are the ones that the instruction reports
  obtain ⟨reads, writes, hroles⟩ :=
    readThenWrite_formAccesses inst.mnemonic inst.size.isWide inst.operands
  rw [Instruction.readsFlags, Instruction.writesFlags, any_flags_eq, any_flags_eq, hform, hroles]
  cases reads <;> cases writes <;> rfl

/-! ## Everything accessed is tracked

Recording skips what is not tracked, that is, constants. No access list has any, so later proofs need no case
for it. The argument follows the parts of the list, as for the flags. -/

/-- Every access of the list is to a tracked resource. -/
def AllTracked (accesses : List Access) : Prop := ∀ a ∈ accesses, a.resource.isTracked = true

@[simp] theorem allTracked_nil : AllTracked [] := fun _ h => by cases h

@[simp] theorem allTracked_cons {a : Access} {l : List Access} :
    AllTracked (a :: l) ↔ a.resource.isTracked = true ∧ AllTracked l := List.forall_mem_cons

@[simp] theorem allTracked_append {l l' : List Access} :
    AllTracked (l ++ l') ↔ AllTracked l ∧ AllTracked l' := List.forall_mem_append

/-- Every register is tracked, those of the x87 stack as the stack. -/
@[simp] theorem isTracked_reg (r : Register) (role : Role) :
    (Access.reg r role).resource.isTracked = true := by
  cases r <;> rfl

@[simp] theorem isTracked_flags (role : Role) : (Access.flags role).resource.isTracked = true := rfl

@[simp] theorem allTracked_addressAccesses (mem : MemOperand) : AllTracked mem.addressAccesses := by
  intro a h
  obtain ⟨r, _, rfl⟩ := List.mem_map.mp h
  exact isTracked_reg r .use

/-- The address registers are tracked, and so is all that a memory operand covers. -/
@[simp] theorem allTracked_memAccesses (mem : MemOperand) (wide : Bool) (role : Role) :
    AllTracked (mem.accesses wide role) := by
  -- an operand in the constant pool covers nothing, so what is left is tracked
  rw [MemOperand.accesses, allTracked_append]
  refine ⟨allTracked_addressAccesses mem, fun a h => ?_⟩
  obtain ⟨resource, hmem, rfl⟩ := List.mem_map.mp h
  unfold MemOperand.coveredResources at hmem
  show resource.isTracked = true
  cases hclass : mem.memClass <;> rw [hclass] at hmem <;> cases wide <;> simp at hmem <;>
    rcases hmem with rfl | rfl <;> rfl

@[simp] theorem allTracked_accumulatorAccesses (m : Mnemonic) : AllTracked m.accumulatorAccesses := by
  unfold Mnemonic.accumulatorAccesses
  split <;> simp

@[simp] theorem allTracked_arithmeticFlags (m : Mnemonic) : AllTracked m.arithmeticFlags := by
  unfold Mnemonic.arithmeticFlags
  split <;> split <;> simp

/-- What a mnemonic touches without naming it are flags, registers and memory. -/
@[simp] theorem allTracked_implicitAccesses (m : Mnemonic) (keepsFlags : Bool) :
    AllTracked (m.implicitAccesses keepsFlags) := by
  unfold Mnemonic.implicitAccesses Mnemonic.controlAccesses Mnemonic.pushAccesses
  rw [allTracked_append, allTracked_append]
  refine ⟨⟨?_, allTracked_accumulatorAccesses m⟩, ?_⟩
  · split
    · split <;> simp
    · split <;> simp
  · split
    · simp [Resource.isTracked, Access.plain]
    · exact allTracked_nil

@[simp] theorem allTracked_registerFormAccesses (m : Mnemonic) (src dst : Register) :
    AllTracked (Instruction.registerFormAccesses m src dst) := by
  unfold Instruction.registerFormAccesses Mnemonic.registerFormFlags
  split
  · exact allTracked_accumulatorAccesses m
  · split
    · simp
    · split <;> simp

@[simp] theorem allTracked_loadFormAccesses (m : Mnemonic) (wide : Bool) (src : MemOperand)
    (dst : Register) : AllTracked (Instruction.loadFormAccesses m wide src dst) := by
  unfold Instruction.loadFormAccesses Mnemonic.loadFormFlags
  split
  · simp
  · split <;> split <;> split <;> simp

@[simp] theorem allTracked_storeFormAccesses (m : Mnemonic) (wide : Bool) (src : Register)
    (dst : MemOperand) : AllTracked (Instruction.storeFormAccesses m wide src dst) := by
  unfold Instruction.storeFormAccesses
  split
  · simp
  · split <;> split <;> simp

/-- **Everything that an instruction accesses is tracked**, since constants are never listed. One case for each
form, closed by the lemmas about its parts. -/
theorem allTracked_accesses (inst : Instruction) : AllTracked inst.accesses := by
  unfold Instruction.accesses
  rw [allTracked_append]
  constructor
  · cases inst.operands <;> simp [Instruction.formAccesses]
  · split
    · simp [Resource.isTracked, Access.plain]
    · exact allTracked_nil

end DualIssue
