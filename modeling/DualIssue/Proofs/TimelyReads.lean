import DualIssue.Proofs.InstructionAccesses
import Mathlib.Data.List.Pairwise

/-!
# Reads that are listed in time

Accesses are recorded in the order in which an instruction lists them. A read that is listed after a write of the
same resource is recorded too late: by then the instruction itself is the last writer. It does no harm if the
write also reads, for the same reason. This module finds the instructions that read too late.

* **`Timely`**: no read of a resource for a reason is too late. It is a notion of access lists, with lemmas for
  lists that are put together.
* **`Instruction.ReadsLate`**: the reads that are too late. An exchange lists its register before the address that
  may be computed from it, and a load onto the register stack lists the write before the read.
* **`timely_accesses`**: there are no others, whatever registers coincide.
-/

namespace DualIssue

/-- No access of the list writes the resource. -/
def NeverWrites (resource : Resource) (accesses : List Access) : Prop :=
  ∀ a ∈ accesses, a.resource = resource → a.role.writes = false

/-- No access of the list reads the resource for this reason. -/
def NeverReads (resource : Resource) (reason : LatencyReason) (accesses : List Access) : Prop :=
  ∀ a ∈ accesses, a.resource = resource → a.reason = reason → a.role.reads = false

/-- What writes a resource before it is read for a reason has itself read it for that reason. -/
def Timely (resource : Resource) (reason : LatencyReason) (accesses : List Access) : Prop :=
  accesses.Pairwise fun a b => a.resource = resource → a.role.writes = true →
    b.resource = resource → b.reason = reason → b.role.reads = true →
      a.role.reads = true ∧ a.reason = reason

section Lists

variable {resource : Resource} {reason : LatencyReason} {l l' : List Access}

/-! ## Lists of accesses

A list is timely if its parts are and no part reads what an earlier one writes. Two lemmas for appending are
enough for all instructions: either nothing in front writes the resource, or nothing behind reads it. -/

theorem neverWrites_append : NeverWrites resource (l ++ l') ↔ NeverWrites resource l ∧ NeverWrites resource l' :=
  List.forall_mem_append

theorem timely_singleton (access : Access) : Timely resource reason [access] := List.pairwise_singleton _ _

theorem NeverWrites.timely (h : NeverWrites resource l) : Timely resource reason l := by
  refine List.pairwise_of_forall_mem_list fun a ha b _ hres hwrites => ?_
  rw [h a ha hres] at hwrites
  cases hwrites

/-- What stands in front and does not write makes nothing late. -/
theorem Timely.append_of_neverWrites (h : NeverWrites resource l) (h' : Timely resource reason l') :
    Timely resource reason (l ++ l') := by
  refine List.pairwise_append.mpr ⟨h.timely, h', fun a ha b _ hres hwrites => ?_⟩
  rw [h a ha hres] at hwrites
  cases hwrites

/-- What stands behind and does not read is not late. -/
theorem Timely.append_of_neverReads (h : Timely resource reason l) (h' : NeverReads resource reason l') :
    Timely resource reason (l ++ l') := by
  have hlate : ∀ b ∈ l', b.resource = resource → b.reason = reason → ¬ b.role.reads = true := by
    intro b hb hres hreason hreads
    rw [h' b hb hres hreason] at hreads
    cases hreads
  refine List.pairwise_append.mpr ⟨h, ?_, ?_⟩
  · exact List.pairwise_of_forall_mem_list fun a _ b hb _ _ hres hreason hreads =>
      absurd hreads (hlate b hb hres hreason)
  · exact fun a _ b hb _ _ hres hreason hreads => absurd hreads (hlate b hb hres hreason)

/-- **A read that is in time** is made, before anything is written, by an access for the same reason. Induction
on the list: the first access that writes the resource has read it for this reason, and if there is none the
read itself will do. -/
theorem Timely.exists_first (h : Timely resource reason l) {access : Access} (hmem : access ∈ l)
    (hres : access.resource = resource) (hreason : access.reason = reason)
    (hreads : access.role.reads = true) :
    ∃ front first back, l = front ++ first :: back ∧ NeverWrites resource front ∧
      first.resource = resource ∧ first.reason = reason ∧ first.role.reads = true := by
  induction l with
  | nil => cases hmem
  | cons a l ih =>
    obtain ⟨hhead, htail⟩ := List.pairwise_cons.mp h
    have hnil : NeverWrites resource [] := fun _ ha => nomatch ha
    rcases List.mem_cons.mp hmem with rfl | hmem
    · exact ⟨[], access, l, rfl, hnil, hres, hreason, hreads⟩
    · by_cases hwrite : a.resource = resource ∧ a.role.writes = true
      · obtain ⟨hareads, hareason⟩ := hhead access hmem hwrite.1 hwrite.2 hres hreason hreads
        exact ⟨[], a, l, rfl, hnil, hwrite.1, hareason, hareads⟩
      · obtain ⟨front, first, back, rfl, hfront, hfirst⟩ := ih htail hmem
        refine ⟨a :: front, first, back, rfl, List.forall_mem_cons.mpr ⟨fun ha => ?_, hfront⟩, hfirst⟩
        exact Bool.eq_false_iff.mpr fun hw => hwrite ⟨ha, hw⟩

end Lists

/-! ## The parts of an access list

Flags are apart from all other resources, addresses are only read, and no operand covers a resource twice. So
each part by itself is timely, for every resource. -/

section Parts

variable {resource : Resource} {reason : LatencyReason}

theorem neverWrites_of_flags (hflags : resource ≠ .flags) {l : List Access}
    (h : ∀ a ∈ l, a.resource = .flags) : NeverWrites resource l :=
  fun a ha hres => absurd (hres.symm.trans (h a ha)) hflags

theorem neverReads_of_flags (hflags : resource ≠ .flags) {l : List Access}
    (h : ∀ a ∈ l, a.resource = .flags) : NeverReads resource reason l :=
  fun a ha hres _ => absurd (hres.symm.trans (h a ha)) hflags

theorem Mnemonic.arithmeticFlags_flags (m : Mnemonic) : ∀ a ∈ m.arithmeticFlags, a.resource = .flags := by
  unfold arithmeticFlags
  split <;> split <;> simp [Access.flags, Access.plain]

theorem Mnemonic.loadFormFlags_flags (m : Mnemonic) : ∀ a ∈ m.loadFormFlags, a.resource = .flags := by
  unfold loadFormFlags
  split <;> split <;> simp [Access.flags, Access.plain]

theorem Mnemonic.registerFormFlags_flags (m : Mnemonic) :
    ∀ a ∈ m.registerFormFlags, a.resource = .flags := by
  unfold registerFormFlags
  split
  · simp [Access.flags, Access.plain]
  · split
    · intro a ha
      cases ha
    · exact arithmeticFlags_flags m

/-- What a form with at most one operand does to the flags. -/
def Mnemonic.implicitFlags (m : Mnemonic) (keepsFlags : Bool) : List Access :=
  if m.isDelimiter then m.controlAccesses else if keepsFlags then [] else [.flags .define]

theorem Mnemonic.implicitFlags_flags (m : Mnemonic) (keepsFlags : Bool) :
    ∀ a ∈ m.implicitFlags keepsFlags, a.resource = .flags := by
  unfold implicitFlags controlAccesses
  split
  · split <;> simp [Access.flags, Access.plain]
  · split <;> simp [Access.flags, Access.plain]

theorem neverWrites_use (r : Register) : NeverWrites resource [.reg r .use] :=
  fun _ ha _ => by rw [List.mem_singleton.mp ha]; rfl

theorem neverWrites_addressAccesses (mem : MemOperand) : NeverWrites resource mem.addressAccesses := by
  intro a ha _
  obtain ⟨r, _, rfl⟩ := List.mem_map.mp ha
  rfl

theorem neverWrites_memAccesses_use (mem : MemOperand) (wide : Bool) :
    NeverWrites resource (mem.accesses wide .use) := by
  refine neverWrites_append.mpr ⟨neverWrites_addressAccesses mem, fun a ha _ => ?_⟩
  obtain ⟨covered, _, rfl⟩ := List.mem_map.mp ha
  rfl

/-- No memory operand covers a resource twice. -/
theorem MemOperand.nodup_coveredResources (mem : MemOperand) (wide : Bool) :
    (mem.coveredResources wide).Nodup := by
  unfold coveredResources
  cases mem.memClass <;> cases wide <;> simp

/-- What an operand covers is accessed once, so no write of it comes before a read. -/
theorem timely_covered (mem : MemOperand) (wide : Bool) (role : Role) :
    Timely resource reason ((mem.coveredResources wide).map (.plain · role)) := by
  refine List.pairwise_map.mpr ((mem.nodup_coveredResources wide).imp fun hne hres _ hres' => ?_)
  exact absurd (hres.trans hres'.symm) hne

/-- The address comes first and is only read. -/
theorem timely_memAccesses (mem : MemOperand) (wide : Bool) (role : Role) :
    Timely resource reason (mem.accesses wide role) :=
  Timely.append_of_neverWrites (neverWrites_addressAccesses mem) (timely_covered mem wide role)

/-- The two registers are different. -/
theorem timely_accumulatorAccesses (m : Mnemonic) : Timely resource reason m.accumulatorAccesses := by
  unfold Mnemonic.accumulatorAccesses
  split
  · refine List.pairwise_pair.mpr fun heax _ hedx => ?_
    cases heax.trans hedx.symm
  · exact List.Pairwise.nil

/-- The stack pointer is no memory. -/
theorem timely_pushAccesses (m : Mnemonic) : Timely resource reason m.pushAccesses := by
  unfold Mnemonic.pushAccesses
  split
  · refine List.pairwise_pair.mpr fun hesp _ hmemory => ?_
    cases hesp.trans hmemory.symm
  · exact List.Pairwise.nil

/-- A memory operand covers no register. -/
theorem MemOperand.ofReg_not_mem_coveredResources (mem : MemOperand) (wide : Bool) (r : Register) :
    .ofReg r ∉ mem.coveredResources wide := by
  unfold coveredResources
  cases r <;> cases mem.memClass <;> cases wide <;> simp [Resource.ofReg]

/-- What a memory operand reads of the registers it reads for the address. -/
theorem MemOperand.reason_of_mem_accesses {mem : MemOperand} {wide : Bool} {role : Role} {a : Access}
    (ha : a ∈ mem.accesses wide role) {r : Register} (hres : a.resource = .ofReg r) :
    a.reason = .agenStall := by
  rcases List.mem_append.mp ha with ha | ha
  · obtain ⟨_, _, rfl⟩ := List.mem_map.mp ha
    rfl
  · obtain ⟨covered, hcovered, rfl⟩ := List.mem_map.mp ha
    have hcovered : covered = .ofReg r := hres ▸ rfl
    subst hcovered
    exact absurd hcovered (mem.ofReg_not_mem_coveredResources wide r)

/-- A form with at most one operand reads only registers besides it, and the flags. -/
theorem Mnemonic.reads_of_mem_implicitAccesses {m : Mnemonic} {keepsFlags : Bool} {a : Access}
    (ha : a ∈ m.implicitAccesses keepsFlags) (hreads : a.role.reads = true) :
    a.resource = .flags ∨ ∃ r, a.resource = .ofReg r := by
  unfold implicitAccesses at ha
  rcases List.mem_append.mp ha with ha | ha
  · rcases List.mem_append.mp ha with ha | ha
    · exact Or.inl (m.implicitFlags_flags keepsFlags a ha)
    · unfold accumulatorAccesses at ha
      split at ha
      · rcases List.mem_cons.mp ha with rfl | ha
        · exact Or.inr ⟨.eax, rfl⟩
        · rw [List.mem_singleton.mp ha]
          exact Or.inr ⟨.edx, rfl⟩
      · cases ha
  · unfold pushAccesses at ha
    split at ha
    · rcases List.mem_cons.mp ha with rfl | ha
      · exact Or.inr ⟨.esp, rfl⟩
      · rw [List.mem_singleton.mp ha] at hreads
        cases hreads
    · cases ha

end Parts

/-! ## The forms

Each form puts its parts together. Most begin with parts that write nothing but the flags. Those that do not are
treated by the resource in question: what the operand covers is memory, and what is accessed besides it is not. -/

section Forms

variable {resource : Resource} {reason : LatencyReason} (hflags : resource ≠ .flags)

include hflags

/-- Of the two implicit groups that are not flags a mnemonic has at most one. -/
theorem timely_implicitAccesses (m : Mnemonic) (keepsFlags : Bool) :
    Timely resource reason (m.implicitAccesses keepsFlags) := by
  show Timely resource reason (m.implicitFlags keepsFlags ++ m.accumulatorAccesses ++ m.pushAccesses)
  rw [List.append_assoc]
  refine .append_of_neverWrites (neverWrites_of_flags hflags (m.implicitFlags_flags keepsFlags)) ?_
  -- no mnemonic works on the accumulator and pushes
  by_cases hpush : m = .push
  · rw [hpush]
    exact timely_pushAccesses .push
  · rw [Mnemonic.pushAccesses, if_neg hpush, List.append_nil]
    exact timely_accumulatorAccesses m

/-- Where the operand is written nothing else but the flags is touched. -/
theorem timely_registerOperand (m : Mnemonic) (r : Register) (keepsFlags : Bool) :
    Timely resource reason
      (.reg r (if m.readsOnlyOperand then .use else .useDefine) :: m.implicitAccesses keepsFlags) := by
  rw [← List.singleton_append]
  by_cases hreads : m.readsOnlyOperand = true
  · rw [if_pos hreads]
    exact .append_of_neverWrites (neverWrites_use r) (timely_implicitAccesses hflags m keepsFlags)
  · have hacc : m.accumulatorAccesses = [] := if_neg fun h => hreads (by simp [Mnemonic.readsOnlyOperand, h])
    have hpush : m.pushAccesses = [] := if_neg fun h => hreads (by simp [Mnemonic.readsOnlyOperand, h])
    have himplicit : m.implicitAccesses keepsFlags = m.implicitFlags keepsFlags := by
      show m.implicitFlags keepsFlags ++ m.accumulatorAccesses ++ m.pushAccesses = _
      rw [hacc, hpush, List.append_nil, List.append_nil]
    rw [himplicit]
    exact (timely_singleton _).append_of_neverReads
      (neverReads_of_flags hflags (m.implicitFlags_flags keepsFlags))

/-- A resource that the operand covers is memory, which nothing after it reads. Any other is not written by the
operand. -/
theorem timely_memoryOperand (m : Mnemonic) (mem : MemOperand) (wide : Bool) (role : Role)
    (keepsFlags : Bool) :
    Timely resource reason (mem.accesses wide role ++ m.implicitAccesses keepsFlags) := by
  by_cases hcovered : resource ∈ mem.coveredResources wide
  · -- memory is read by the operand only
    refine (timely_memAccesses mem wide role).append_of_neverReads fun a ha hres _ => ?_
    refine Bool.eq_false_iff.mpr fun hreads => ?_
    rcases Mnemonic.reads_of_mem_implicitAccesses ha hreads with heq | ⟨r, heq⟩
    · exact hflags (hres.symm.trans heq)
    · rw [← hres, heq] at hcovered
      exact mem.ofReg_not_mem_coveredResources wide r hcovered
  · refine .append_of_neverWrites ?_ (timely_implicitAccesses hflags m keepsFlags)
    refine neverWrites_append.mpr ⟨neverWrites_addressAccesses mem, fun a ha hres => ?_⟩
    obtain ⟨covered, hmem, rfl⟩ := List.mem_map.mp ha
    exact absurd (hres ▸ hmem) hcovered

/-- The source is only read, and the destination comes last. -/
theorem timely_registerFormAccesses (m : Mnemonic) (src dst : Register) :
    Timely resource reason (Instruction.registerFormAccesses m src dst) := by
  unfold Instruction.registerFormAccesses
  split
  · exact timely_accumulatorAccesses m
  · refine .append_of_neverWrites (neverWrites_of_flags hflags m.registerFormFlags_flags) ?_
    exact .append_of_neverWrites (neverWrites_use src) (timely_singleton _)

/-- The memory is only read, and the register comes last. -/
theorem timely_loadFormAccesses (m : Mnemonic) (wide : Bool) (src : MemOperand) (dst : Register) :
    Timely resource reason (Instruction.loadFormAccesses m wide src dst) := by
  unfold Instruction.loadFormAccesses
  split
  · exact .append_of_neverWrites (neverWrites_memAccesses_use src wide) (timely_singleton _)
  · refine .append_of_neverWrites (neverWrites_append.mpr
      ⟨neverWrites_of_flags hflags m.loadFormFlags_flags, ?_⟩) (timely_singleton _)
    split
    · exact neverWrites_addressAccesses src
    · exact neverWrites_memAccesses_use src wide

omit hflags in
/-- A register that is read and written before others are read: too late are reads for other reasons. -/
theorem Timely.cons_useDefine {l : List Access} (h : Timely resource reason l) {r : Register}
    (hreason : ∀ a ∈ l, a.resource = .ofReg r → resource = .ofReg r → a.reason = reason → reason = .plain) :
    Timely resource reason (.reg r .useDefine :: l) := by
  refine List.pairwise_cons.mpr ⟨fun a ha hres _ hres' hareason _ => ⟨rfl, ?_⟩, h⟩
  exact (hreason a ha (hres'.trans hres.symm) hres.symm hareason).symm

end Forms

/-! ## Which reads are late

The two exceptions are where a write comes first that has not read for the same reason. An exchange reads and
writes its register as data before the address is read. A load onto the stack writes the top before the stack is
accessed as a whole. -/

/-- The reads that an instruction lists after a write of the same resource, and for which it has listed none
before: the address of an exchange computed from the register that is exchanged, and the stack that a value is
loaded onto. -/
def Instruction.ReadsLate (inst : Instruction) (access : Access) : Prop :=
  match inst.operands with
  | .regToMem src _ =>
    access.reason = .agenStall ∧ (inst.mnemonic = .xchg ∧ access.resource = .ofReg src ∨
      inst.mnemonic = .cmpxchg ∧ access.resource = .ofReg .eax)
  | .memToReg _ dst =>
    access.reason = .plain ∧ access.resource = .fpStack ∧ dst = .st0 ∧
      (inst.mnemonic = .fld ∨ inst.mnemonic = .fild)
  | _ => False

/-- Where the memory is named last. Both exchanges list a register as read and written in front of the address,
so what is late is the address, and only if it is computed from this register (`Timely.cons_useDefine`). -/
theorem timely_storeFormAccesses {access : Access} (hflags : access.resource ≠ .flags) (m : Mnemonic)
    (wide : Bool) (src : Register) (dst : MemOperand)
    (hlate : ¬ (access.reason = .agenStall ∧ (m = .xchg ∧ access.resource = .ofReg src ∨
      m = .cmpxchg ∧ access.resource = .ofReg .eax))) :
    Timely access.resource access.reason (Instruction.storeFormAccesses m wide src dst) := by
  unfold Instruction.storeFormAccesses
  split
  · exact .append_of_neverWrites (neverWrites_use src) (timely_memAccesses dst wide .define)
  · rw [List.append_assoc]
    refine .append_of_neverWrites (neverWrites_of_flags hflags m.arithmeticFlags_flags) ?_
    by_cases hxchg : m = .xchg
    · subst hxchg
      refine (timely_memAccesses dst wide .useDefine).cons_useDefine fun a ha hares hres hareason => ?_
      -- the address is the only other reader of the register, and that would be a late read
      have hagen := MemOperand.reason_of_mem_accesses ha hares
      exact absurd ⟨hareason.symm.trans hagen, Or.inl ⟨rfl, hres⟩⟩ hlate
    · rw [if_neg hxchg]
      have hrest : Timely access.resource access.reason (.reg src .use :: dst.accesses wide m.destinationRole) :=
        .append_of_neverWrites (neverWrites_use src) (timely_memAccesses dst wide _)
      split
      · rename_i hcmpxchg
        refine hrest.cons_useDefine fun a ha hares hres hareason => ?_
        rcases List.mem_cons.mp ha with rfl | ha
        · exact hareason.symm
        · have hagen := MemOperand.reason_of_mem_accesses ha hares
          exact absurd ⟨hareason.symm.trans hagen, Or.inr ⟨hcmpxchg, hres⟩⟩ hlate
      · exact hrest

/-- The accesses of the operands, one case for each form. Only the form that names memory last needs that the
read is not late. -/
theorem timely_formAccesses (inst : Instruction) {access : Access} (hflags : access.resource ≠ .flags)
    (hlate : ¬ inst.ReadsLate access) :
    Timely access.resource access.reason
      (Instruction.formAccesses inst.mnemonic inst.size.isWide inst.operands) := by
  unfold Instruction.ReadsLate at hlate
  generalize inst.mnemonic = m at hlate ⊢
  cases hoperands : inst.operands with
  | none => exact timely_implicitAccesses hflags m _
  | imm _ => exact timely_implicitAccesses hflags m _
  | reg r => exact timely_registerOperand hflags m r _
  | mem mem => exact timely_memoryOperand hflags m mem _ _ _
  | immToReg _ dst =>
    exact .append_of_neverWrites (neverWrites_of_flags hflags m.arithmeticFlags_flags) (timely_singleton _)
  | immToMem _ dst =>
    exact .append_of_neverWrites (neverWrites_of_flags hflags m.arithmeticFlags_flags)
      (timely_memAccesses dst _ _)
  | regToReg src dst => exact timely_registerFormAccesses hflags m src dst
  | immRegReg _ src dst => exact timely_registerFormAccesses hflags m src dst
  | memToReg src dst => exact timely_loadFormAccesses hflags m _ src dst
  | regToMem src dst =>
    rw [hoperands] at hlate
    exact timely_storeFormAccesses hflags m _ src dst hlate

/-! ### The register stack

An instruction of the stack unit accesses the stack once more, after its operands. This is a read, so everything
before it that writes the stack must have read it. It has, except for a load onto the stack. -/

/-- What writes the resource also reads it, at no extra cost. -/
def ReadsWhatItWrites (resource : Resource) (accesses : List Access) : Prop :=
  ∀ a ∈ accesses, a.resource = resource → a.role.writes = true → a.role.reads = true ∧ a.reason = .plain

section Stack

variable {resource : Resource} {l l' : List Access}

theorem readsWhatItWrites_append : ReadsWhatItWrites resource (l ++ l') ↔
    ReadsWhatItWrites resource l ∧ ReadsWhatItWrites resource l' := List.forall_mem_append

theorem NeverWrites.readsWhatItWrites (h : NeverWrites resource l) : ReadsWhatItWrites resource l := by
  intro a ha hres hwrites
  rw [h a ha hres] at hwrites
  cases hwrites

theorem fpStack_neverWrites_of_flags (h : ∀ a ∈ l, a.resource = .flags) : NeverWrites .fpStack l :=
  neverWrites_of_flags Resource.noConfusion h

theorem readsWhatItWrites_useDefine (r : Register) : ReadsWhatItWrites resource [.reg r .useDefine] := by
  intro a ha _ _
  rw [List.mem_singleton.mp ha]
  exact ⟨rfl, rfl⟩

theorem neverWrites_fpStack_memAccesses (mem : MemOperand) (wide : Bool) (role : Role) :
    NeverWrites .fpStack (mem.accesses wide role) := by
  refine neverWrites_append.mpr ⟨neverWrites_addressAccesses mem, fun a ha hres => ?_⟩
  obtain ⟨covered, hmem, rfl⟩ := List.mem_map.mp ha
  have hcovered : covered = .ofReg .st0 := hres
  rw [hcovered] at hmem
  exact absurd hmem (mem.ofReg_not_mem_coveredResources wide .st0)

/-- Implicit accesses are of flags, other registers and memory. -/
theorem neverWrites_fpStack_implicitAccesses (m : Mnemonic) (keepsFlags : Bool) :
    NeverWrites .fpStack (m.implicitAccesses keepsFlags) := by
  show NeverWrites .fpStack (m.implicitFlags keepsFlags ++ m.accumulatorAccesses ++ m.pushAccesses)
  refine neverWrites_append.mpr ⟨neverWrites_append.mpr
    ⟨fpStack_neverWrites_of_flags (m.implicitFlags_flags keepsFlags), ?_⟩, ?_⟩
  · unfold Mnemonic.accumulatorAccesses
    split <;> simp [NeverWrites, Access.reg, Access.plain, Resource.ofReg]
  · unfold Mnemonic.pushAccesses
    split <;> simp [NeverWrites, Access.plain]

/-- Instructions of the stack unit read the register operand that they write. -/
theorem Mnemonic.roles_of_isX87 {m : Mnemonic} (h : m.isX87 = true) :
    m.destinationRole = .useDefine ∧ m.registerDestinationRole = .useDefine ∧ m ≠ .cdq := by
  cases m <;> cases h <;> exact ⟨rfl, rfl, nofun⟩

/-- The operands of the stack unit are read where they are written, one case for each form. In the form that
names a register last the loads onto the stack are the exception, and they are excluded. -/
theorem readsWhatItWrites_formAccesses {m : Mnemonic} (hx87 : m.isX87 = true) (wide : Bool)
    (operands : Operands)
    (hload : ∀ src dst, operands = .memToReg src dst → dst = .st0 → m ≠ .fld ∧ m ≠ .fild) :
    ReadsWhatItWrites .fpStack (Instruction.formAccesses m wide operands) := by
  obtain ⟨hrole, hregisterRole, hcdq⟩ := Mnemonic.roles_of_isX87 hx87
  have himplicit : ∀ keepsFlags, ReadsWhatItWrites .fpStack (m.implicitAccesses keepsFlags) :=
    fun keepsFlags => (neverWrites_fpStack_implicitAccesses m keepsFlags).readsWhatItWrites
  have hmem : ∀ (mem : MemOperand) role, ReadsWhatItWrites .fpStack (mem.accesses wide role) :=
    fun mem role => (neverWrites_fpStack_memAccesses mem wide role).readsWhatItWrites
  have huse : ∀ r, ReadsWhatItWrites .fpStack [.reg r .use] :=
    fun r => (neverWrites_use r).readsWhatItWrites
  have harithmetic : ReadsWhatItWrites .fpStack m.arithmeticFlags :=
    (fpStack_neverWrites_of_flags m.arithmeticFlags_flags).readsWhatItWrites
  have hregister : ∀ src dst, ReadsWhatItWrites .fpStack (Instruction.registerFormAccesses m src dst) := by
    intro src dst
    rw [Instruction.registerFormAccesses, if_neg hcdq, hregisterRole]
    refine readsWhatItWrites_append.mpr
      ⟨(fpStack_neverWrites_of_flags m.registerFormFlags_flags).readsWhatItWrites, ?_⟩
    exact readsWhatItWrites_append.mpr ⟨huse src, readsWhatItWrites_useDefine dst⟩
  cases operands with
  | none => exact himplicit _
  | imm _ => exact himplicit _
  | reg r =>
    rw [Instruction.formAccesses, ← List.singleton_append]
    refine readsWhatItWrites_append.mpr ⟨?_, himplicit _⟩
    split
    · exact huse r
    · exact readsWhatItWrites_useDefine r
  | mem mem => exact readsWhatItWrites_append.mpr ⟨hmem mem _, himplicit _⟩
  | immToReg _ dst =>
    rw [Instruction.formAccesses, hrole]
    exact readsWhatItWrites_append.mpr ⟨harithmetic, readsWhatItWrites_useDefine dst⟩
  | immToMem _ dst => exact readsWhatItWrites_append.mpr ⟨harithmetic, hmem dst _⟩
  | regToReg src dst => exact hregister src dst
  | immRegReg _ src dst => exact hregister src dst
  | memToReg src dst =>
    rw [Instruction.formAccesses, Instruction.loadFormAccesses, if_pos hx87]
    refine readsWhatItWrites_append.mpr ⟨hmem src .use, fun a ha hres => ?_⟩
    rw [List.mem_singleton.mp ha] at hres ⊢
    -- only what is loaded onto the stack is written without being read
    have hst0 : dst = .st0 := by cases dst <;> first | rfl | cases hres
    obtain ⟨hfld, hfild⟩ := hload src dst rfl hst0
    simp [hfld, hfild, Access.reg, Access.plain, Role.reads]
  | regToMem src dst =>
    rw [Instruction.formAccesses, Instruction.storeFormAccesses, if_pos hx87]
    exact readsWhatItWrites_append.mpr ⟨huse src, hmem dst .define⟩

end Stack

/-- **Every read is in time but the late ones.** The operands are by `timely_formAccesses`. In the stack unit
the stack is accessed once more behind them, and what has written it before has also read it
(`readsWhatItWrites_formAccesses`). -/
theorem timely_accesses (inst : Instruction) {access : Access} (hflags : access.resource ≠ .flags)
    (hlate : ¬ inst.ReadsLate access) : Timely access.resource access.reason inst.accesses := by
  have hform := timely_formAccesses inst hflags hlate
  unfold Instruction.accesses
  split
  · rename_i hx87
    refine List.pairwise_append.mpr ⟨hform, timely_singleton _, fun a ha b hb hres hwrites hbres hbreason _ => ?_⟩
    rw [List.mem_singleton.mp hb] at hbres hbreason
    have hreads : ReadsWhatItWrites .fpStack
        (Instruction.formAccesses inst.mnemonic inst.size.isWide inst.operands) := by
      refine readsWhatItWrites_formAccesses hx87 _ _ fun src dst hoperands hst0 => ?_
      rw [Instruction.ReadsLate, hoperands] at hlate
      exact not_or.mp fun hm => hlate ⟨hbreason.symm, hbres.symm, hst0, hm⟩
    obtain ⟨hareads, hareason⟩ := hreads a ha (hres.trans hbres.symm) hwrites
    exact ⟨hareads, hareason.trans hbreason⟩
  · rw [List.append_nil]
    exact hform

end DualIssue
