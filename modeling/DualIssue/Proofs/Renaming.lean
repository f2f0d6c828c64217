import DualIssue.Machine.Atom
import DualIssue.Proofs.BareRecords
import DualIssue.Proofs.TimelyReads
import Mathlib.Logic.Equiv.Basic

/-!
# Names and constants do not matter

Two blocks that differ in the names of their registers and frame slots, and in their constants, have one schedule.
The implicit accesses name `eax`, `edx`, `esp` and the x87 stack, so these keep their names; everything else may be
renamed, as long as neighbours in the frame stay neighbours.

* **`Renaming`**: a permutation of the registers and a shift of the frame.
* **`Renaming.Renames`**: an instruction and another that differs by a renaming, and in constants.
* **`Renames.map_recordedAccesses`**: a renamed instruction has the renamed accesses.
* **`Tracker.seenThrough`**: the tables of a tracker, looked up under new names. Recording commutes with it.
* **`scheduleBlock_of_renames`**: renamed blocks fail alike or have one schedule, operands apart.
-/

namespace DualIssue

/-- All registers but the top of the x87 stack stand for themselves. -/
theorem Resource.ofReg_of_ne_st0 {r : Register} (h : r ≠ .st0) : Resource.ofReg r = .reg r := by
  cases r with
  | st0 => exact absurd rfl h
  | _ => rfl

/-- New names for registers and for slots of the frame. Registers that instructions use implicitly keep theirs. -/
structure Renaming where
  register : Equiv.Perm Register
  /-- How far the home slots of virtual registers move. -/
  homes : UInt32
  /-- How far the spill slots move. -/
  spills : UInt32
  eax_eq : register .eax = .eax
  edx_eq : register .edx = .edx
  esp_eq : register .esp = .esp
  st0_eq : register .st0 = .st0

namespace Renaming

/-! ## Renamed operands

A relation and not a function, because constants are free: displacements and immediates may be any. What the
machine model and the recording ask of an instruction, apart from its accesses, is its mnemonic and the shape of
its operands, and these are the same. -/

def memClass (ρ : Renaming) : MemoryClass → MemoryClass
  | .virtualReg index => .virtualReg (index + ρ.homes)
  | .spill slot => .spill (slot + ρ.spills)
  | .unknown => .unknown
  | .constants => .constants

/-- Memory operands that differ by the renaming, and in their displacements. -/
structure RenamesMem (ρ : Renaming) (mem mem' : MemOperand) : Prop where
  base_eq : mem'.base = mem.base.map ρ.register
  index_eq : mem'.index = mem.index.map ρ.register
  memClass_eq : mem'.memClass = ρ.memClass mem.memClass

/-- Operands of one form that differ by the renaming, and in immediates and displacements. -/
inductive RenamesOperands (ρ : Renaming) : Operands → Operands → Prop where
  | none : RenamesOperands ρ .none .none
  | imm (imm imm' : Int64) : RenamesOperands ρ (.imm imm) (.imm imm')
  | reg (r : Register) : RenamesOperands ρ (.reg r) (.reg (ρ.register r))
  | mem {mem mem' : MemOperand} (hmem : ρ.RenamesMem mem mem') :
      RenamesOperands ρ (.mem mem) (.mem mem')
  | immToReg (imm imm' : Int64) (dst : Register) :
      RenamesOperands ρ (.immToReg imm dst) (.immToReg imm' (ρ.register dst))
  | immToMem (imm imm' : Int64) {dst dst' : MemOperand} (hdst : ρ.RenamesMem dst dst') :
      RenamesOperands ρ (.immToMem imm dst) (.immToMem imm' dst')
  | regToReg (src dst : Register) :
      RenamesOperands ρ (.regToReg src dst) (.regToReg (ρ.register src) (ρ.register dst))
  | memToReg {src src' : MemOperand} (hsrc : ρ.RenamesMem src src') (dst : Register) :
      RenamesOperands ρ (.memToReg src dst) (.memToReg src' (ρ.register dst))
  | regToMem (src : Register) {dst dst' : MemOperand} (hdst : ρ.RenamesMem dst dst') :
      RenamesOperands ρ (.regToMem src dst) (.regToMem (ρ.register src) dst')
  | immRegReg (imm imm' : Int64) (src dst : Register) :
      RenamesOperands ρ (.immRegReg imm src dst)
        (.immRegReg imm' (ρ.register src) (ρ.register dst))

/-- The second instruction is the first one renamed, with any constants. -/
structure Renames (ρ : Renaming) (inst inst' : Instruction) : Prop where
  mnemonic_eq : inst'.mnemonic = inst.mnemonic
  size_eq : inst'.size = inst.size
  isVolatile_eq : inst'.isVolatile = inst.isVolatile
  operands : ρ.RenamesOperands inst.operands inst'.operands

variable {ρ : Renaming} {inst inst' : Instruction}

theorem RenamesOperands.shape_eq {operands operands' : Operands}
    (h : ρ.RenamesOperands operands operands') : operands'.shape = operands.shape := by
  cases h <;> rfl

theorem Renames.shape_eq (h : ρ.Renames inst inst') : inst'.shape = inst.shape := h.operands.shape_eq

theorem Renames.isDelimiter_eq (h : ρ.Renames inst inst') : inst'.isDelimiter = inst.isDelimiter :=
  congrArg Mnemonic.isDelimiter h.mnemonic_eq

theorem Renames.isMemoryLoad_eq (h : ρ.Renames inst inst') : inst'.isMemoryLoad = inst.isMemoryLoad := by
  unfold Instruction.isMemoryLoad
  rw [h.mnemonic_eq, h.shape_eq]

/-! ## Renamed resources

What is renamed is told apart as before, and what has a role of its own keeps it. A register that stands for a
resource of its own is the top of the x87 stack, which keeps its name. -/

def resource (ρ : Renaming) : Resource → Resource
  | .reg r => .reg (ρ.register r)
  | .virtualReg index => .virtualReg (index + ρ.homes)
  | .spill slot => .spill (slot + ρ.spills)
  | .flags => .flags
  | .memory => .memory
  | .fpStack => .fpStack
  | .constants => .constants

/-- Renaming tells apart what was apart. -/
theorem resource_injective (ρ : Renaming) : Function.Injective ρ.resource := by
  intro a b h
  cases a <;> cases b <;> simp_all [resource]

theorem isTracked_resource (ρ : Renaming) (resource : Resource) :
    (ρ.resource resource).isTracked = resource.isTracked := by
  cases resource <;> rfl

theorem resource_ofReg (ρ : Renaming) (r : Register) :
    ρ.resource (.ofReg r) = .ofReg (ρ.register r) := by
  by_cases hr : r = .st0
  · rw [hr, ρ.st0_eq]
    rfl
  · -- no other register gets the name of the x87 stack
    have hr' : ρ.register r ≠ .st0 := fun h => hr (ρ.register.injective (h.trans ρ.st0_eq.symm))
    rw [Resource.ofReg_of_ne_st0 hr, Resource.ofReg_of_ne_st0 hr']
    rfl

/-! ## Renamed accesses

The accesses of an instruction are put together from parts, and so is the proof that renaming goes through:
one lemma for each part, in the order of the definitions. Flags are not renamed, explicit registers and addresses
are, and implicit accesses name only registers that are fixed. -/

def access (ρ : Renaming) (a : Access) : Access := { a with resource := ρ.resource a.resource }

/-- Nothing else becomes the flags. -/
theorem resource_access_eq_flags_iff (ρ : Renaming) (a : Access) :
    (ρ.access a).resource = .flags ↔ a.resource = .flags :=
  ρ.resource_injective.eq_iff' rfl

theorem access_reg (ρ : Renaming) (r : Register) (role : Role) :
    ρ.access (.reg r role) = .reg (ρ.register r) role := by
  show ({ resource := ρ.resource (.ofReg r), role } : Access) = _
  rw [resource_ofReg]
  rfl

theorem access_address (ρ : Renaming) (r : Register) :
    ρ.access (.address r) = .address (ρ.register r) := by
  show ({ resource := ρ.resource (.ofReg r), role := .use, reason := .agenStall } : Access) = _
  rw [resource_ofReg]
  rfl

theorem map_access_of_flags (ρ : Renaming) {l : List Access} (h : ∀ a ∈ l, a.resource = .flags) :
    l.map ρ.access = l := by
  refine (List.map_congr_left fun a ha => ?_).trans (List.map_id l)
  unfold access
  rw [h a ha]
  show ({ a with resource := .flags } : Access) = a
  rw [← h a ha]

/-- The registers of an address are renamed one by one. -/
theorem map_addressAccesses {mem mem' : MemOperand} (h : ρ.RenamesMem mem mem') :
    mem.addressAccesses.map ρ.access = mem'.addressAccesses := by
  unfold MemOperand.addressAccesses
  rw [h.base_eq, h.index_eq]
  cases mem.base <;> cases mem.index <;> simp [access_address]

/-- Neighbours in the frame stay neighbours, also where the count wraps around. -/
theorem map_coveredResources {mem mem' : MemOperand} (h : ρ.RenamesMem mem mem') (wide : Bool) :
    (mem.coveredResources wide).map ρ.resource = mem'.coveredResources wide := by
  have hshift (word step shift : UInt32) : word + step + shift = word + shift + step := by
    rw [UInt32.add_assoc, UInt32.add_comm step, ← UInt32.add_assoc]
  unfold MemOperand.coveredResources
  rw [h.memClass_eq]
  cases mem.memClass with
  | virtualReg index =>
    cases wide
    · rfl
    · simp [memClass, resource, hshift index 1]
  | spill slot =>
    cases wide
    · rfl
    · simp [memClass, resource, hshift slot 4]
  | unknown => rfl
  | constants => rfl

theorem map_memAccesses {mem mem' : MemOperand} (h : ρ.RenamesMem mem mem') (wide : Bool) (role : Role) :
    (mem.accesses wide role).map ρ.access = mem'.accesses wide role := by
  unfold MemOperand.accesses
  rw [List.map_append, map_addressAccesses h, ← map_coveredResources h, List.map_map, List.map_map]
  rfl

theorem map_accumulatorAccesses (ρ : Renaming) (m : Mnemonic) :
    m.accumulatorAccesses.map ρ.access = m.accumulatorAccesses := by
  unfold Mnemonic.accumulatorAccesses
  split
  · simp only [List.map_cons, List.map_nil, access_reg, ρ.eax_eq, ρ.edx_eq]
  · rfl

theorem map_pushAccesses (ρ : Renaming) (m : Mnemonic) : m.pushAccesses.map ρ.access = m.pushAccesses := by
  unfold Mnemonic.pushAccesses
  split
  · show [({ resource := .reg (ρ.register .esp), role := .useDefine, reason := .agenStall } : Access), _] = _
    rw [ρ.esp_eq]
    rfl
  · rfl

/-- Implicit accesses are of the flags or name fixed registers. -/
theorem map_implicitAccesses (ρ : Renaming) (m : Mnemonic) (keepsFlags : Bool) :
    (m.implicitAccesses keepsFlags).map ρ.access = m.implicitAccesses keepsFlags := by
  show (m.implicitFlags keepsFlags ++ m.accumulatorAccesses ++ m.pushAccesses).map ρ.access = _
  rw [List.map_append, List.map_append, ρ.map_access_of_flags (m.implicitFlags_flags keepsFlags),
    map_accumulatorAccesses, map_pushAccesses]
  rfl

theorem map_registerFormAccesses (ρ : Renaming) (m : Mnemonic) (src dst : Register) :
    (Instruction.registerFormAccesses m src dst).map ρ.access =
      Instruction.registerFormAccesses m (ρ.register src) (ρ.register dst) := by
  unfold Instruction.registerFormAccesses
  split
  · exact ρ.map_accumulatorAccesses m
  · rw [List.map_append, ρ.map_access_of_flags m.registerFormFlags_flags]
    simp only [List.map_cons, List.map_nil, access_reg]

theorem map_loadFormAccesses (m : Mnemonic) (wide : Bool) {src src' : MemOperand}
    (hsrc : ρ.RenamesMem src src') (dst : Register) :
    (Instruction.loadFormAccesses m wide src dst).map ρ.access =
      Instruction.loadFormAccesses m wide src' (ρ.register dst) := by
  unfold Instruction.loadFormAccesses
  split
  · rw [List.map_append, map_memAccesses hsrc, List.map_singleton, access_reg]
  · rw [List.map_append, List.map_append, ρ.map_access_of_flags m.loadFormFlags_flags,
      List.map_singleton, access_reg]
    congr 2
    split
    · exact map_addressAccesses hsrc
    · exact map_memAccesses hsrc wide .use

/-- Where the memory is named last. One case for each way in which the mnemonic uses the two operands. -/
theorem map_storeFormAccesses (m : Mnemonic) (wide : Bool) (src : Register) {dst dst' : MemOperand}
    (hdst : ρ.RenamesMem dst dst') :
    (Instruction.storeFormAccesses m wide src dst).map ρ.access =
      Instruction.storeFormAccesses m wide (ρ.register src) dst' := by
  unfold Instruction.storeFormAccesses
  split
  · rw [List.map_cons, access_reg, map_memAccesses hdst]
  · rw [List.map_append, List.map_append, ρ.map_access_of_flags m.arithmeticFlags_flags]
    congr 2
    · -- a comparing exchange also names the accumulator
      split
      · rw [List.map_singleton, access_reg, ρ.eax_eq]
      · rfl
    · split
      · rw [List.map_cons, access_reg, map_memAccesses hdst]
      · rw [List.map_cons, access_reg, map_memAccesses hdst]

/-- The accesses of the operands, one case for each form. -/
theorem map_formAccesses (m : Mnemonic) (wide : Bool) {operands operands' : Operands}
    (h : ρ.RenamesOperands operands operands') :
    (Instruction.formAccesses m wide operands).map ρ.access =
      Instruction.formAccesses m wide operands' := by
  cases h with
  | none => exact ρ.map_implicitAccesses m _
  | imm => exact ρ.map_implicitAccesses m _
  | reg r =>
    unfold Instruction.formAccesses
    rw [List.map_cons, access_reg, map_implicitAccesses]
  | mem hmem =>
    unfold Instruction.formAccesses
    rw [List.map_append, map_memAccesses hmem, map_implicitAccesses]
  | immToReg imm imm' dst =>
    unfold Instruction.formAccesses
    rw [List.map_append, ρ.map_access_of_flags m.arithmeticFlags_flags, List.map_singleton, access_reg]
  | immToMem imm imm' hdst =>
    unfold Instruction.formAccesses
    rw [List.map_append, ρ.map_access_of_flags m.arithmeticFlags_flags, map_memAccesses hdst]
  | regToReg src dst => exact ρ.map_registerFormAccesses m src dst
  | memToReg hsrc dst => exact map_loadFormAccesses m wide hsrc dst
  | regToMem src hdst => exact map_storeFormAccesses m wide src hdst
  | immRegReg imm imm' src dst => exact ρ.map_registerFormAccesses m src dst

/-- **A renamed instruction has the renamed accesses**, implicit ones included. To the accesses of its operands
come those of the x87 stack, and of memory if it is volatile. -/
theorem Renames.map_recordedAccesses (h : ρ.Renames inst inst') :
    (Tracker.recordedAccesses inst).map ρ.access = Tracker.recordedAccesses inst' := by
  unfold Tracker.recordedAccesses Instruction.accesses
  rw [h.mnemonic_eq, h.size_eq, h.isVolatile_eq, List.map_append, List.map_append,
    map_formAccesses _ _ h.operands]
  -- the x87 stack and memory keep their names
  congr 2
  · split <;> rfl
  · split <;> rfl

end Renaming

/-! ## Recording

The tables of the tracker are functions of resources. Recording the original block fills tables that are those
of the renamed block looked up under new names, and the edges are between slots, which have no names. Since
renaming is injective, setting an entry goes through the lookup. -/

namespace Tracker

variable (ρ : Renaming) (t : Tracker)

/-- The tracker with its tables looked up under the new names. -/
def seenThrough : Tracker :=
  { t with
    producer := fun resource => t.producer (ρ.resource resource)
    users := fun resource => t.users (ρ.resource resource) }

/-- To set an entry and look it up under a new name is to set it under the new name. This is where renaming has
to be injective. -/
theorem set_seenThrough {α : Type} (map : ResourceMap α) (resource : Resource) (value : α) :
    ResourceMap.set (fun r => map (ρ.resource r)) resource value =
      fun r => map.set (ρ.resource resource) value (ρ.resource r) := by
  funext r
  unfold ResourceMap.set
  simp only [ρ.resource_injective.eq_iff]

theorem edgesFor_seenThrough (a : Access) (slot : Slot) :
    (t.seenThrough ρ).edgesFor a slot = t.edgesFor (ρ.access a) slot := by
  unfold edgesFor
  simp only [ρ.resource_access_eq_flags_iff]
  rfl

/-- Noting an access commutes with the lookup. The tables of the flags are not looked up by resource; the other
two are set, or one of them. -/
theorem note_seenThrough (a : Access) (slot : Slot) :
    (t.seenThrough ρ).note a slot = (t.note (ρ.access a) slot).seenThrough ρ := by
  unfold note
  simp only [ρ.resource_access_eq_flags_iff]
  split
  · unfold noteFlags
    show (if a.role.writes = true then _ else _) =
      (if a.role.writes = true then _ else _ : Tracker).seenThrough ρ
    split <;> rfl
  · unfold noteAccess
    show (if a.role.writes = true then _ else _) =
      (if a.role.writes = true then _ else _ : Tracker).seenThrough ρ
    split
    · unfold seenThrough
      dsimp only
      rw [set_seenThrough, set_seenThrough]
      rfl
    · unfold seenThrough
      dsimp only
      rw [set_seenThrough]
      rfl

/-- So recording an access does, checks included. -/
theorem record_seenThrough (a : Access) (slot : Slot) :
    (t.seenThrough ρ).record a slot = (t.record (ρ.access a) slot).map (seenThrough ρ) := by
  unfold record
  rw [edgesFor_seenThrough, note_seenThrough]
  show (if a.resource.isTracked = true then _ else _) =
    (if (ρ.resource a.resource).isTracked = true then _ else _ : Except _ _).map (seenThrough ρ)
  rw [ρ.isTracked_resource]
  split
  · show (t.graph.addEdges _ >>= _) = Except.map _ (t.graph.addEdges _ >>= _)
    cases t.graph.addEdges (t.edgesFor (ρ.access a) slot) <;> rfl
  · rfl

variable {ρ}

/-- Recording an instruction is a fold over its accesses, and both sides fold alike (`foldlM_view`). -/
theorem recordInstruction_seenThrough {inst inst' : Instruction} (h : ρ.Renames inst inst') :
    (t.seenThrough ρ).recordInstruction inst = (t.recordInstruction inst').map (seenThrough ρ) := by
  unfold recordInstruction recordAll
  rw [← h.map_recordedAccesses, h.isMemoryLoad_eq]
  have hlists : List.Forall₂ (fun a' a => a' = ρ.access a)
      ((recordedAccesses inst).map ρ.access) (recordedAccesses inst) := by
    rw [List.forall₂_map_left_iff]
    exact List.forall₂_same.mpr fun _ _ => rfl
  refine foldlM_view (seenThrough ρ) ?_ hlists (t.addNode inst.isMemoryLoad)
  rintro t _ a rfl
  exact t.record_seenThrough ρ a _

/-- **Recording a renamed block fills the renamed tables** and adds the same edges. Again a fold, now over
instructions. -/
theorem ofBlock_seenThrough {block block' : List Instruction}
    (h : List.Forall₂ ρ.Renames block block') (latencies : LatencyTable) :
    ofBlock latencies block = (ofBlock latencies block').map (seenThrough ρ) := by
  unfold ofBlock
  refine foldlM_view (seenThrough ρ) ?_ h.flip (start latencies)
  intro t inst' inst hinst
  exact t.recordInstruction_seenThrough hinst

end Tracker

/-! ## Scheduling

What remains reads the graph and the records, of which nothing but the operands is renamed. -/

variable {ρ : Renaming}

/-- Closing a block does not look at the tables of resources. -/
theorem BlockSchedule.ofTracker_seenThrough (ρ : Renaming) (t : Tracker) (records : Array Record) :
    ofTracker (t.seenThrough ρ) records = ofTracker t records := by
  have hfinish : (t.seenThrough ρ).finish = t.finish := by
    show (t.graph.addEdges t.liveOutEdges >>= _) >>= _ = (t.graph.addEdges t.liveOutEdges >>= _) >>= _
    cases t.graph.addEdges t.liveOutEdges <;> rfl
  unfold ofTracker
  rw [hfinish]

/-- The records of a renamed block differ in their operands only. Induction on the two blocks: the entry of the
model, the check for a delimiter and the slot are the same at every instruction. -/
theorem enlist_of_renames {block block' : List Instruction} (h : List.Forall₂ ρ.Renames block block')
    (model : MachineModel) (slot : Slot) :
    (enlist model slot block').map (List.map Record.bare) =
      (enlist model slot block).map (List.map Record.bare) := by
  induction h generalizing slot with
  | nil => rfl
  | @cons inst inst' rest rest' hinst hrest ih =>
    have hentry : model.entryOf inst' = model.entryOf inst := by
      unfold MachineModel.entryOf
      rw [hinst.mnemonic_eq, hinst.shape_eq]
    have hempty : rest'.isEmpty = rest.isEmpty := by
      cases hrest <;> rfl
    have hrecord (entry : MachineEntry) :
        (Record.ofEntry slot inst' entry).bare = (Record.ofEntry slot inst entry).bare := by
      unfold Record.ofEntry Record.bare
      rw [hinst.mnemonic_eq]
    -- a record in front is bared by itself, and the rest behind it
    have hcons (record : Record) (records : Except ScheduleError (List Record)) :
        (records >>= fun rest => .ok (record :: rest)).map (List.map Record.bare) =
          (records.map (List.map Record.bare)).map (record.bare :: ·) := by
      cases records <;> rfl
    unfold enlist
    rw [hentry, hinst.isDelimiter_eq, hempty]
    cases model.entryOf inst with
    | error e => rfl
    | ok entry =>
      dsimp only [bind, Except.bind]
      split
      · rfl
      · calc _ = ((enlist model (slot + 1) rest').map (List.map Record.bare)).map
              ((Record.ofEntry slot inst' entry).bare :: ·) := hcons _ _
          _ = ((enlist model (slot + 1) rest).map (List.map Record.bare)).map
              ((Record.ofEntry slot inst entry).bare :: ·) := by rw [ih, hrecord]
          _ = _ := (hcons _ _).symm

/-- **Names and constants do not matter.** Renamed blocks fail with one error, or have the same order, the same graph
and records that differ in their operands only, whether or not reordering is switched on. -/
theorem scheduleBlock_of_renames {block block' : List Instruction}
    (h : List.Forall₂ ρ.Renames block block') (model : MachineModel) (options : Options) :
    (scheduleBlock model options block').map BlockSchedule.bare =
      (scheduleBlock model options block).map BlockSchedule.bare := by
  -- without operands the records are the same, and without names the tables
  rw [scheduleBlock_bare, scheduleBlock_bare, enlist_of_renames h, Tracker.ofBlock_seenThrough h]
  cases (enlist model 0 block).map (List.map Record.bare) with
  | error e => rfl
  | ok records =>
    show (if options.enabled then _ else _) = (if options.enabled then _ else _)
    cases options.enabled with
    | false => rfl
    | true =>
      cases Tracker.ofBlock options.latencies block' with
      | error f => rfl
      | ok t => exact (BlockSchedule.ofTracker_seenThrough ρ t records.toArray).symm

/-- `ecx` and `ebx` trade names, and so do `xmm0` and `xmm3`. The frame moves, homes and spills by different amounts. -/
def tradedNames : Renaming where
  register := (Equiv.swap .ecx .ebx).trans (Equiv.swap .xmm0 .xmm3)
  homes := 7
  spills := 12
  eax_eq := by decide
  edx_eq := by decide
  esp_eq := by decide
  st0_eq := by decide

/-- A wide store that covers the last home and the first, a load of the first, and a product that names one factor. -/
def wrappedStore : List Instruction :=
  [{ mnemonic := .movsd, operands := .regToMem .xmm0 (.virtualReg .edi 0xFFFFFFFF), size := .s64 },
   { mnemonic := .mov, operands := .memToReg (.virtualReg .edi 0) .ecx },
   { mnemonic := .mul, operands := .reg .ecx },
   { mnemonic := .mov, operands := .immToReg 5 .ebx },
   { mnemonic := .add, operands := .regToReg .eax .ebx },
   { mnemonic := .mov, operands := .regToMem .ebx (.spill .esp 4) }]

/-- The same block under the other names: its store does not wrap, and its constants are others. -/
def unwrappedStore : List Instruction :=
  [{ mnemonic := .movsd, operands := .regToMem .xmm3 (.virtualReg .edi 6), size := .s64 },
   { mnemonic := .mov, operands := .memToReg (.virtualReg .edi 7) .ebx },
   { mnemonic := .mul, operands := .reg .ebx },
   { mnemonic := .mov, operands := .immToReg (-1) .ecx },
   { mnemonic := .add, operands := .regToReg .eax .ecx },
   { mnemonic := .mov, operands := .regToMem .ecx (.spill .esp 16) }]

/-- The store wraps around in one block and not in the other, and the two have one schedule. -/
theorem scheduleBlock_of_renames_on_wrappedStore :
    List.Forall₂ tradedNames.Renames wrappedStore unwrappedStore ∧
      (scheduleBlock Atom.model {} wrappedStore).map (·.order) = .ok [0, 3, 1, 2, 4, 5] ∧
      (scheduleBlock Atom.model {} unwrappedStore).map BlockSchedule.bare =
        (scheduleBlock Atom.model {} wrappedStore).map BlockSchedule.bare := by
  have hrenames : List.Forall₂ tradedNames.Renames wrappedStore unwrappedStore := by
    refine .cons ⟨rfl, rfl, rfl, .regToMem .xmm0 ⟨by decide, rfl, by decide⟩⟩ ?_
    refine .cons ⟨rfl, rfl, rfl, .memToReg ⟨by decide, rfl, by decide⟩ .ecx⟩ ?_
    refine .cons ⟨rfl, rfl, rfl, .reg .ecx⟩ ?_
    refine .cons ⟨rfl, rfl, rfl, .immToReg 5 (-1) .ebx⟩ ?_
    refine .cons ⟨rfl, rfl, rfl, .regToReg .eax .ebx⟩ ?_
    exact .cons ⟨rfl, rfl, rfl, .regToMem .ebx ⟨by decide, rfl, by decide⟩⟩ .nil
  refine ⟨hrenames, by decide +kernel, ?_⟩
  exact scheduleBlock_of_renames hrenames Atom.model {}

end DualIssue
