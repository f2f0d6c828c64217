import DualIssue.Machine.Atom
import DualIssue.Proofs.ConflictOrder
import DualIssue.Proofs.EdgeCauses

/-!
# The order of accesses to memory

Dependences through memory are found by equality of resources. Data that lies across several home slots of
virtual registers must therefore be listed slot by slot, and an instruction that both reads and writes
memory must be listed as doing so. Each of the two rules has its limit.

* **`OperandSize.homes`**: the home slots that data covers, four bytes each.
* **`overlapping_homes_keep_order`**: accesses to common home slots keep their order, of 128-bit data the first
  two slots only. **`wideStore_overtaken`** is a load of the third that does not wait for its store.
* **`exchange_keeps_order`**: an exchange with memory keeps its place among all that touches its operands, but
  one that names the register last is no write of the memory. **`exchange_overtaken`** is a load that does not
  wait for one.
-/

namespace DualIssue

open DualIssue.Tracker

/-! ## The memory operand of an instruction

An instruction lists its accesses one operand after the other, and implicit ones last. Only the memory operand
can lie in the frame, so all parts of the list but one are `OffFrame`. The part of the memory operand has every
resource that the operand covers, all in one role, and this survives when the other parts are put around it. -/

def Operands.memory? : Operands → Option MemOperand
  | .mem operand | .immToMem _ operand | .memToReg operand _ | .regToMem _ operand => some operand
  | .none | .imm _ | .reg _ | .immToReg .. | .regToReg .. | .immRegReg .. => .none

/-- No access of the list is to the home of a virtual register. -/
def OffFrame (accesses : List Access) : Prop := ∀ a ∈ accesses, ∀ home, a.resource ≠ .virtualReg home

@[simp] theorem offFrame_nil : OffFrame [] := fun _ h => by cases h

@[simp] theorem offFrame_cons {a : Access} {l : List Access} :
    OffFrame (a :: l) ↔ (∀ home, a.resource ≠ .virtualReg home) ∧ OffFrame l := List.forall_mem_cons

@[simp] theorem offFrame_append {l l' : List Access} :
    OffFrame (l ++ l') ↔ OffFrame l ∧ OffFrame l' := List.forall_mem_append

@[simp] theorem ofReg_ne_virtualReg (r : Register) (home : UInt32) :
    Resource.ofReg r ≠ .virtualReg home := by
  cases r <;> exact Resource.noConfusion

@[simp] theorem reg_ne_virtualReg (r : Register) (role : Role) (home : UInt32) :
    (Access.reg r role).resource ≠ .virtualReg home := ofReg_ne_virtualReg r home

@[simp] theorem flags_ne_virtualReg (role : Role) (home : UInt32) :
    (Access.flags role).resource ≠ .virtualReg home := Resource.noConfusion

/-- The registers of an address are read, and registers are no home slots. -/
@[simp] theorem offFrame_addressAccesses (mem : MemOperand) : OffFrame mem.addressAccesses := by
  intro a h home
  obtain ⟨r, _, rfl⟩ := List.mem_map.mp h
  exact ofReg_ne_virtualReg r home

@[simp] theorem offFrame_arithmeticFlags (m : Mnemonic) : OffFrame m.arithmeticFlags := by
  unfold Mnemonic.arithmeticFlags
  split <;> split <;> simp

/-- What an instruction accesses without naming it are registers, flags and plain memory. One case for each of
the three groups. -/
@[simp] theorem offFrame_implicitAccesses (m : Mnemonic) (keepsFlags : Bool) :
    OffFrame (m.implicitAccesses keepsFlags) := by
  unfold Mnemonic.implicitAccesses Mnemonic.controlAccesses Mnemonic.accumulatorAccesses
    Mnemonic.pushAccesses
  rw [offFrame_append, offFrame_append]
  refine ⟨⟨?_, ?_⟩, ?_⟩
  · split
    · split <;> simp
    · split <;> simp
  · split <;> simp
  · split <;> simp [Access.plain]

/-- If a list of accesses reaches the frame at all, it does so through the operand: whatever the operand
covers is in the list, in the same role. -/
def ReachesFrameBy (mem : MemOperand) (wide : Bool) (accesses : List Access) : Prop :=
  ∀ a ∈ accesses, ∀ home, a.resource = .virtualReg home →
    ∀ resource ∈ mem.coveredResources wide, .plain resource a.role ∈ accesses

section ReachesFrameBy

variable {mem : MemOperand} {wide : Bool} {l l' : List Access}

theorem OffFrame.reachesFrameBy (h : OffFrame l) : ReachesFrameBy mem wide l :=
  fun a ha home hhome => absurd hhome (h a ha home)

theorem ReachesFrameBy.append_left (h : ReachesFrameBy mem wide l') (hl : OffFrame l) :
    ReachesFrameBy mem wide (l ++ l') := by
  intro a ha home hhome resource hres
  rcases List.mem_append.mp ha with ha | ha
  · exact absurd hhome (hl a ha home)
  · exact List.mem_append_right l (h a ha home hhome resource hres)

theorem ReachesFrameBy.append_right (h : ReachesFrameBy mem wide l) (hl' : OffFrame l') :
    ReachesFrameBy mem wide (l ++ l') := by
  intro a ha home hhome resource hres
  rcases List.mem_append.mp ha with ha | ha
  · exact List.mem_append_left l' (h a ha home hhome resource hres)
  · exact absurd hhome (hl' a ha home)

/-- The accesses of an operand are those of its address, which is made of registers, and one for each resource
that it covers. -/
theorem reachesFrameBy_accesses (mem : MemOperand) (wide : Bool) (role : Role) :
    ReachesFrameBy mem wide (mem.accesses wide role) := by
  refine ReachesFrameBy.append_left ?_ (offFrame_addressAccesses mem)
  intro a ha home _ resource hres
  obtain ⟨_, _, rfl⟩ := List.mem_map.mp ha
  exact List.mem_map_of_mem hres

end ReachesFrameBy

/-- Where the register is named last. The address may be all that counts, and then the frame is not reached. -/
theorem reachesFrameBy_loadFormAccesses (m : Mnemonic) (wide : Bool) (src : MemOperand)
    (dst : Register) : ReachesFrameBy src wide (Instruction.loadFormAccesses m wide src dst) := by
  have hflags : OffFrame m.loadFormFlags := by
    unfold Mnemonic.loadFormFlags
    split <;> split <;> simp
  unfold Instruction.loadFormAccesses
  split
  · exact (reachesFrameBy_accesses src wide _).append_right (by simp)
  · split
    · refine OffFrame.reachesFrameBy ?_
      simp [hflags]
    · exact ((reachesFrameBy_accesses src wide _).append_left hflags).append_right (by simp)

/-- Where the memory is named last. The role depends on the mnemonic, but it is one role. -/
theorem reachesFrameBy_storeFormAccesses (m : Mnemonic) (wide : Bool) (src : Register)
    (dst : MemOperand) : ReachesFrameBy dst wide (Instruction.storeFormAccesses m wide src dst) := by
  have hstore : ∀ role role',
      ReachesFrameBy dst wide (.reg src role :: dst.accesses wide role') := fun role role' =>
    (reachesFrameBy_accesses dst wide role').append_left (l := [.reg src role]) (by simp)
  have hfront : OffFrame (m.arithmeticFlags ++ if m = .cmpxchg then [.reg .eax .useDefine] else []) := by
    split <;> simp
  unfold Instruction.storeFormAccesses
  split
  · exact hstore _ _
  · refine ReachesFrameBy.append_left ?_ hfront
    split
    · exact hstore _ _
    · exact hstore _ _

/-- **The frame is reached through the memory operand only.** One case for each form that has such an operand. -/
theorem Instruction.reachesFrameBy {inst : Instruction} {mem : MemOperand}
    (h : inst.operands.memory? = some mem) : ReachesFrameBy mem inst.size.isWide inst.accesses := by
  have hform : ReachesFrameBy mem inst.size.isWide
      (formAccesses inst.mnemonic inst.size.isWide inst.operands) := by
    generalize inst.operands = operands at h ⊢
    cases operands with
    | mem operand =>
      cases h
      exact (reachesFrameBy_accesses _ _ _).append_right (by simp)
    | immToMem _ dst =>
      cases h
      exact (reachesFrameBy_accesses _ _ _).append_left (by simp)
    | memToReg src dst =>
      cases h
      exact reachesFrameBy_loadFormAccesses _ _ _ _
    | regToMem src dst =>
      cases h
      exact reachesFrameBy_storeFormAccesses _ _ _ _
    | _ => cases h
  refine hform.append_right ?_
  split <;> simp [Access.plain]

/-! ## Home slots of virtual registers

Data is listed by the home slots that it covers, so two accesses that overlap have a resource in common, and
conflicts on a resource keep their order (`issuesBefore_of_conflict`). What an instruction lists are at most two
slots. -/

def OperandSize.bytes : OperandSize → Nat
  | .s8 => 1
  | .s16 => 2
  | .s32 => 4
  | .s64 => 8
  | .s128 => 16

/-- The home slots that data covers from a slot on. A home is four bytes wide, and indices wrap around. -/
def OperandSize.homes (size : OperandSize) (index : UInt32) : List UInt32 :=
  (List.range ((size.bytes + 3) / 4)).map fun k => index + .ofNat k

/-- The instruction accesses the frame through a memory operand in the home of a virtual register. -/
def Instruction.AccessesHome (inst : Instruction) (index : UInt32) (role : Role) : Prop :=
  (∃ mem, inst.operands.memory? = some mem ∧ mem.memClass = .virtualReg index) ∧
    ∃ access ∈ inst.accesses, (∃ home, access.resource = .virtualReg home) ∧ access.role = role

/-- Of the slots that data covers, all are tracked up to 64 bits and the first two of 128. -/
theorem mem_coveredResources_of_mem_homes {size : OperandSize} {mem : MemOperand} {index home : UInt32}
    (hclass : mem.memClass = .virtualReg index) (hhome : home ∈ size.homes index)
    (hnear : size = .s128 → home = index ∨ home = index + 1) :
    .virtualReg home ∈ mem.coveredResources size.isWide := by
  have hhome : home = index ∨ size.isWide = true ∧ home = index + 1 := by
    cases size with
    | s8 | s16 | s32 => exact Or.inl (by simpa [OperandSize.homes, OperandSize.bytes] using hhome)
    | s64 => simpa [OperandSize.homes, OperandSize.bytes, OperandSize.isWide, List.range_succ] using hhome
    | s128 => simpa [OperandSize.isWide] using hnear rfl
  unfold MemOperand.coveredResources
  rw [hclass]
  rcases hhome with rfl | ⟨hwide, rfl⟩
  · exact List.mem_cons_self
  · simp [hwide]

/-- An access to a home is logged for every slot that is tracked. Some access reaches the frame in this role, so
all that the operand covers are accessed in it. -/
theorem Instruction.AccessesHome.mem_accessLog {block : List Instruction} {slot : Slot}
    {inst : Instruction} {index home : UInt32} {role : Role} (h : inst.AccessesHome index role)
    (hinst : block[slot]? = some inst) (hhome : home ∈ inst.size.homes index)
    (hnear : inst.size = .s128 → home = index ∨ home = index + 1) :
    (slot, .plain (.virtualReg home) role) ∈ accessLog block := by
  obtain ⟨⟨mem, hmem, hclass⟩, access, haccess, ⟨_, hres⟩, rfl⟩ := h
  have hcovered := mem_coveredResources_of_mem_homes hclass hhome hnear
  have hlisted := inst.reachesFrameBy hmem access haccess _ hres _ hcovered
  exact mem_accessLog_iff.mpr ⟨inst, hinst, List.mem_append_left _ hlisted⟩

/-- **Accesses to common home slots keep their order.** If two instructions access home slots through memory
operands that cover a slot in common, and one of them writes, then the later one issues in a strictly later
cycle. Of 128-bit data only the first two slots count. -/
theorem overlapping_homes_keep_order {model : MachineModel} {options : Options}
    {block : List Instruction} {s : BlockSchedule} (henabled : options.enabled = true)
    (h : scheduleBlock model options block = .ok s) {i j : Slot} (hlt : i < j)
    {first second : Instruction} (hfirst : block[i]? = some first) (hsecond : block[j]? = some second)
    {v w : UInt32} {role role' : Role} (haccess : first.AccessesHome v role)
    (haccess' : second.AccessesHome w role') (hwrites : role.writes = true ∨ role'.writes = true)
    {home : UInt32} (hhome : home ∈ first.size.homes v) (hhome' : home ∈ second.size.homes w)
    (hnear : first.size = .s128 → home = v ∨ home = v + 1)
    (hnear' : second.size = .s128 → home = w ∨ home = w + 1) : s.IssuesBefore i j := by
  -- both log an access to the common slot, each in its own role
  have hi := haccess.mem_accessLog hfirst hhome hnear
  have hj := haccess'.mem_accessLog hsecond hhome' hnear'
  have hdata : (Access.plain (.virtualReg home) role).IsData := ⟨rfl, Resource.noConfusion⟩
  exact issuesBefore_of_conflict henabled h hi hj hlt hdata rfl hwrites

/-- A sum is stored as 128 bits from the first home slot on, and two other slots are loaded. -/
def wideStore : List Instruction :=
  [{ mnemonic := .addsd, operands := .regToReg .xmm1 .xmm0 },
   { mnemonic := .movapd, operands := .regToMem .xmm0 (.virtualReg .edi 0), size := .s128 },
   { mnemonic := .mov, operands := .memToReg (.virtualReg .edi 1) .eax },
   { mnemonic := .mov, operands := .memToReg (.virtualReg .edi 2) .ecx }]

/-- The second slot is loaded after the store. -/
theorem overlapping_homes_keep_order_on_wideStore :
    ({} : Options).enabled = true ∧ ∃ s, scheduleBlock Atom.model {} wideStore = .ok s ∧
      1 ∈ OperandSize.s128.homes 0 ∧ 1 ∈ OperandSize.s32.homes 1 ∧ s.IssuesBefore 1 2 := by
  have hresult : (scheduleBlock Atom.model {} wideStore).map (·.order) = .ok [0, 3, 1, 2] := by
    decide +kernel
  obtain ⟨s, hs, _⟩ := Except.map_eq_ok_iff.mp hresult
  have hstore : wideStore[1].AccessesHome 0 .define :=
    ⟨⟨_, rfl, rfl⟩, .plain (.virtualReg 0) .define, by decide, ⟨0, rfl⟩, rfl⟩
  have hload : wideStore[2].AccessesHome 1 .use :=
    ⟨⟨_, rfl, rfl⟩, .plain (.virtualReg 1) .use, by decide, ⟨1, rfl⟩, rfl⟩
  have hcovered : 1 ∈ OperandSize.s128.homes 0 := by decide
  have hloaded : 1 ∈ OperandSize.s32.homes 1 := by decide
  refine ⟨rfl, s, hs, hcovered, hloaded, ?_⟩
  exact overlapping_homes_keep_order rfl hs (by decide) rfl rfl hstore hload (Or.inl rfl)
    hcovered hloaded (fun _ => Or.inr rfl) (fun hsize => nomatch hsize)

/-- **The third slot is loaded before the store**, in the first cycle, although the store covers it. -/
theorem wideStore_overtaken :
    ∃ s store load, scheduleBlock Atom.model {} wideStore = .ok s ∧
      wideStore[1]? = some store ∧ wideStore[3]? = some load ∧
      store.AccessesHome 0 .define ∧ load.AccessesHome 2 .use ∧
      2 ∈ store.size.homes 0 ∧ 2 ∈ load.size.homes 2 ∧
      s.cycleAt 1 = some 5 ∧ s.cycleAt 3 = some 0 ∧ ¬ s.IssuesBefore 1 3 := by
  have hresult : (scheduleBlock Atom.model {} wideStore).map
      (fun s => (s.cycleAt 1, s.cycleAt 3)) = .ok (some 5, some 0) := by
    decide +kernel
  obtain ⟨s, hs, hcycles⟩ := Except.map_eq_ok_iff.mp hresult
  obtain ⟨hstore, hload⟩ := Prod.mk.inj hcycles
  refine ⟨s, _, _, hs, rfl, rfl, ?_, ?_, by decide, by decide, hstore, hload, ?_⟩
  · exact ⟨⟨_, rfl, rfl⟩, .plain (.virtualReg 0) .define, by decide, ⟨0, rfl⟩, rfl⟩
  · exact ⟨⟨_, rfl, rfl⟩, .plain (.virtualReg 2) .use, by decide, ⟨2, rfl⟩, rfl⟩
  · exact BlockSchedule.not_issuesBefore_of_le hstore hload (by decide)

/-! ## Exchanges with memory

An exchange reads and writes both of its operands. What is listed for it is this, except that with the register
named last the memory is only read. Two accesses that both read are kept apart only by a write between them. -/

/-- The instruction exchanges a register with memory, whichever of the two is named last. -/
def Instruction.Exchanges (inst : Instruction) (r : Register) (mem : MemOperand) : Prop :=
  inst.mnemonic = .xchg ∧ (inst.operands = .regToMem r mem ∨ inst.operands = .memToReg mem r)

/-- An exchange touches the register and the memory. It counts as a write of the register, and of the memory
unless the register is named last. -/
theorem Instruction.Exchanges.exists_access {inst : Instruction} {r : Register} {mem : MemOperand}
    (h : inst.Exchanges r mem) {resource : Resource}
    (hres : resource = .ofReg r ∨ resource ∈ mem.coveredResources inst.size.isWide) :
    ∃ access ∈ inst.accesses, access.resource = resource ∧
      (access.role.writes = true ∨
        inst.operands = .memToReg mem r ∧ resource ∈ mem.coveredResources inst.size.isWide) := by
  obtain ⟨mnemonic, operands, size, isVolatile⟩ := inst
  have hmem : ∀ role, resource ∈ mem.coveredResources size.isWide →
      .plain resource role ∈ mem.accesses size.isWide role := fun role hres =>
    List.mem_append_right _ (List.mem_map_of_mem hres)
  -- in the first form both operands are read and written, in the second the memory is only read
  obtain ⟨rfl, rfl | rfl⟩ := h
  · rcases hres with rfl | hres
    · exact ⟨.reg r .useDefine, List.mem_cons_self, rfl, Or.inl rfl⟩
    · refine ⟨.plain resource .useDefine, ?_, rfl, Or.inl rfl⟩
      exact List.mem_append_left _ (List.mem_cons_of_mem _ (hmem _ hres))
  · rcases hres with rfl | hres
    · refine ⟨.reg r .define, ?_, rfl, Or.inl rfl⟩
      exact List.mem_append_left _ (List.mem_append_right _ (List.mem_singleton.mpr rfl))
    · refine ⟨.plain resource .use, ?_, rfl, Or.inr ⟨rfl, hres⟩⟩
      exact List.mem_append_left _ (List.mem_append_left _ (hmem _ hres))

/-- **An exchange keeps its place.** Whatever touches the register or the memory of an exchange issues in a
strictly earlier cycle if it is above the exchange, and in a strictly later one if it is below. Where the
register is named last, this holds of the memory only if something from the one instruction to the other
writes it. -/
theorem exchange_keeps_order {model : MachineModel} {options : Options} {block : List Instruction}
    {s : BlockSchedule} (henabled : options.enabled = true)
    (h : scheduleBlock model options block = .ok s) {x k : Slot} {exchange other : Instruction}
    (hx : block[x]? = some exchange) (hk : block[k]? = some other) {r : Register} {mem : MemOperand}
    (hexchange : exchange.Exchanges r mem) {access : Access} (haccess : access ∈ other.accesses)
    (htouch : access.resource = .ofReg r ∨
      access.resource ∈ mem.coveredResources exchange.size.isWide)
    (hwritten : exchange.operands = .memToReg mem r →
      access.resource ∈ mem.coveredResources exchange.size.isWide →
        ∃ w, (x ≤ w ∧ w ≤ k ∨ k ≤ w ∧ w ≤ x) ∧ Writes (accessLog block) w access.resource) :
    (k < x → s.IssuesBefore k x) ∧ (x < k → s.IssuesBefore x k) := by
  obtain ⟨own, hown, hres, hrole⟩ := hexchange.exists_access htouch
  have hownLog : (x, own) ∈ accessLog block :=
    mem_accessLog_iff.mpr ⟨exchange, hx, List.mem_append_left _ hown⟩
  have hotherLog : (k, access) ∈ accessLog block :=
    mem_accessLog_iff.mpr ⟨other, hk, List.mem_append_left _ haccess⟩
  -- the write that keeps the two apart is the exchange itself or the one that is asked for
  have hwrite : ∃ w, (x ≤ w ∧ w ≤ k ∨ k ≤ w ∧ w ≤ x) ∧ Writes (accessLog block) w access.resource := by
    rcases hrole with hwrites | ⟨hlast, hcovered⟩
    · refine ⟨x, ?_, own, hownLog, hres, hwrites⟩
      exact (Nat.le_total x k).imp (⟨Nat.le_refl x, ·⟩) (⟨·, Nat.le_refl x⟩)
    · exact hwritten hlast hcovered
  obtain ⟨w, hbetween, write, hlog, hwres, hwrites⟩ := hwrite
  have hdata : write.IsData := by
    refine ⟨tracked_of_mem_accessLog hlog, ?_⟩
    rw [hwres]
    rcases htouch with htouch | hcovered
    · rw [htouch]
      exact Resource.ofReg_ne_flags r
    · exact MemOperand.ne_flags_of_mem_coveredResources hcovered
  -- from the upper of the two to the write, and from the write to the lower one
  constructor
  · intro hlt
    obtain ⟨hkw, hwx⟩ := hbetween.resolve_left fun hc => Nat.not_lt.mpr (Nat.le_trans hc.1 hc.2) hlt
    exact issuesBefore_of_written henabled h hotherLog hlog hownLog hlt hkw hwx hdata hwrites
      hwres.symm (hwres.trans hres.symm)
  · intro hlt
    obtain ⟨hxw, hwk⟩ := hbetween.resolve_right fun hc => Nat.not_lt.mpr (Nat.le_trans hc.1 hc.2) hlt
    exact issuesBefore_of_written henabled h hownLog hlog hotherLog hlt hxw hwk hdata hwrites
      (hres.trans hwres.symm) hwres

/-- An exchange whose address comes late, a store and two loads of unknown memory, one above and one below
the store. -/
def lateExchange : List Instruction :=
  [{ mnemonic := .mov, operands := .immToReg 1 .edi },
   { mnemonic := .xchg, operands := .memToReg (.unknown .edi 0) .eax },
   { mnemonic := .mov, operands := .memToReg (.unknown .esi 0) .ecx },
   { mnemonic := .mov, operands := .regToMem .edx (.unknown .ebx 0) },
   { mnemonic := .mov, operands := .memToReg (.unknown .ebp 0) .edx }]

/-- The store keeps the load below it behind the exchange. -/
theorem exchange_keeps_order_on_lateExchange :
    ({} : Options).enabled = true ∧ ∃ s exchange load,
      scheduleBlock Atom.model {} lateExchange = .ok s ∧ lateExchange[1]? = some exchange ∧
      lateExchange[4]? = some load ∧ exchange.Exchanges .eax (.unknown .edi 0) ∧
      .plain .memory .use ∈ load.accesses ∧ s.IssuesBefore 1 4 := by
  have hresult : (scheduleBlock Atom.model {} lateExchange).map (·.order) = .ok [0, 2, 1, 3, 4] := by
    decide +kernel
  obtain ⟨s, hs, _⟩ := Except.map_eq_ok_iff.mp hresult
  have hload : Access.plain .memory .use ∈
      ({ mnemonic := .mov, operands := .memToReg (.unknown .ebp 0) .edx } : Instruction).accesses := by
    decide
  have hstore : Writes (accessLog lateExchange) 3 .memory :=
    ⟨.plain .memory .define, by decide, rfl, rfl⟩
  refine ⟨rfl, s, _, _, hs, rfl, rfl, ⟨rfl, Or.inr rfl⟩, hload, ?_⟩
  exact (exchange_keeps_order rfl hs (x := 1) (k := 4) rfl rfl (r := .eax) ⟨rfl, Or.inr rfl⟩ hload
    (Or.inr (by decide)) fun _ _ => ⟨3, by decide, hstore⟩).2 (by decide)

/-- **A load that does not wait for an exchange.** The load above the store issues in the first cycle, four
cycles before the exchange that is above it and writes the same unknown memory. -/
theorem exchange_overtaken :
    ∃ s exchange load, scheduleBlock Atom.model {} lateExchange = .ok s ∧
      lateExchange[1]? = some exchange ∧ lateExchange[2]? = some load ∧
      exchange.Exchanges .eax (.unknown .edi 0) ∧
      .memory ∈ (MemOperand.unknown .edi 0).coveredResources exchange.size.isWide ∧
      .plain .memory .use ∈ load.accesses ∧
      s.cycleAt 1 = some 4 ∧ s.cycleAt 2 = some 0 ∧ ¬ s.IssuesBefore 1 2 := by
  have hresult : (scheduleBlock Atom.model {} lateExchange).map
      (fun s => (s.cycleAt 1, s.cycleAt 2)) = .ok (some 4, some 0) := by
    decide +kernel
  obtain ⟨s, hs, hcycles⟩ := Except.map_eq_ok_iff.mp hresult
  obtain ⟨hexchange, hload⟩ := Prod.mk.inj hcycles
  exact ⟨s, _, _, hs, rfl, rfl, ⟨rfl, Or.inr rfl⟩, by decide, by decide, hexchange, hload,
    BlockSchedule.not_issuesBefore_of_le hexchange hload (by decide)⟩

end DualIssue
