import DualIssue.Instruction.Codec
import DualIssue.Proofs.JsonReading
import Mathlib.Data.List.Perm.Basic

/-!
# Encodings of blocks

A block has many texts. A record may stand as an object, with its fields in any order, defaults left
out and foreign keys in between, or as an array that stops where only defaults are left; a variant
without data may stand as a string or as an object. `WrittenAs` says for each type how its values may
stand in JSON, without reference to the reader, and `Encodes` adds the spelling of the text. Main
result: `every_encoding_loads`.
-/

namespace DualIssue

namespace Json

/-! ### Variants and records

The two shapes of data that the readers know, described without them. A record is a list of fields, each with
what its value may look like and with the condition under which it may be left out; `Kept` and `Leading` say how
such a list stands as an object and as an array. All that the readers ask of a record is its values by field,
and `RecordOf.record?` shows once that they get them. -/

/-- A variant without data stands as its name, or as an object that gives the name the value `null`. -/
inductive Named (name : String) : Json → Prop where
  | bare : Named name (.text name)
  | keyed : Named name (.object [(name, .null)])

/-- A variant with data stands as an object with the name as its only key. -/
inductive Tagged (name : String) (Data : Json → Prop) : Json → Prop where
  | keyed {data : Json} (h : Data data) : Tagged name Data (.object [(name, data)])

/-- A field of a record: its name, what may stand for its value, and whether it may be left out. -/
structure Field where
  name : String
  Accepts : Json → Prop
  Omissible : Prop

/-- A field that has to be present. -/
def Field.required (name : String) (Accepts : Json → Prop) : Field := ⟨name, Accepts, False⟩

/-- The entries of an object that give fields their values, in the order of the fields. -/
inductive Kept : List Field → List (String × Json) → Prop where
  | nil : Kept [] []
  | present {f : Field} {v : Json} {fields : List Field} {entries : List (String × Json)}
      (hv : f.Accepts v) (h : Kept fields entries) : Kept (f :: fields) ((f.name, v) :: entries)
  | absent {f : Field} {fields : List Field} {entries : List (String × Json)} (hf : f.Omissible)
      (h : Kept fields entries) : Kept (f :: fields) entries

/-- The items of an array that give the first fields their values. -/
inductive Leading : List Field → List Json → Prop where
  | stop {fields : List Field} (h : ∀ f ∈ fields, f.Omissible) : Leading fields []
  | next {f : Field} {v : Json} {fields : List Field} {items : List Json} (hv : f.Accepts v)
      (h : Leading fields items) : Leading (f :: fields) (v :: items)

/-- A record stands as an object, its entries in any order and among entries with other keys, or as
an array. -/
inductive RecordOf (fields : List Field) : Json → Prop where
  | object {known extra entries : List (String × Json)} (hknown : Kept fields known)
      (hextra : ∀ e ∈ extra, ∀ f ∈ fields, e.1 ≠ f.name) (hentries : entries.Perm (known ++ extra)) :
      RecordOf fields (.object entries)
  | array {items : List Json} (h : Leading fields items) : RecordOf fields (.arr items)

/-- The field has an accepted value, or none where it may be left out. -/
def Field.Filled (f : Field) : Option Json → Prop
  | some v => f.Accepts v
  | none => f.Omissible

/-- A reader that succeeds on every item succeeds on the list. Induction on the two lists together. -/
theorem mapM_eq_some_of_forall₂ {α β : Type} {f : α → Option β} {l : List α} {bs : List β}
    (h : List.Forall₂ (fun a b => f a = some b) l bs) : l.mapM f = some bs := by
  induction h with
  | nil => rfl
  | cons hhead _ ih => simp [List.mapM_cons, hhead, ih]

/-- The items of an array fill the fields from the first on. The fields after the last item count as absent, and
`Leading` demands that they may be. Induction on how the array was built. -/
theorem Leading.filled {fields : List Field} {items : List Json} (h : Leading fields items) :
    items.length ≤ fields.length ∧ List.Forall₂ Field.Filled fields
      (items.map some ++ List.replicate (fields.length - items.length) none) := by
  induction h with
  | @stop fields h =>
    refine ⟨Nat.zero_le _, ?_⟩
    induction fields with
    | nil => exact .nil
    | cons f fields ih => exact .cons (h f (.head _)) (ih fun g hg => h g (.tail _ hg))
  | next hv _ ih =>
    refine ⟨Nat.succ_le_succ ih.1, ?_⟩
    simpa using ⟨hv, ih.2⟩

theorem Kept.exists_field {fields : List Field} {entries : List (String × Json)}
    (h : Kept fields entries) : ∀ e ∈ entries, e.1 ∈ fields.map (·.name) := by
  induction h with
  | nil => simp
  | present _ _ ih =>
    intro e he
    rcases List.mem_cons.mp he with rfl | he
    · exact .head _
    · exact .tail _ (ih e he)
  | absent _ _ ih => exact fun e he => .tail _ (ih e he)

/-- The entries under the name of a field: at most one. -/
def entriesOf (name : String) (slot : Option Json) : List (String × Json) :=
  (slot.map fun v => (name, v)).toList

theorem Kept.filter_eq_nil {fields : List Field} {entries : List (String × Json)}
    (h : Kept fields entries) {name : String} (hname : name ∉ fields.map (·.name)) :
    entries.filter (fun e => e.1 = name) = [] := by
  rw [List.filter_eq_nil_iff]
  intro e he heq
  exact hname (of_decide_eq_true heq ▸ h.exists_field e he)

/-- The entries under the name of a field are the one that was kept for it, or none. Induction on the fields:
their names are distinct, so an entry for the first field is found under no later name, and the first name is
found in no later entry. -/
theorem Kept.exists_slots {fields : List Field} {entries : List (String × Json)}
    (h : Kept fields entries) (hnodup : (fields.map (·.name)).Nodup) :
    ∃ slots, List.Forall₂ (fun f slot => f.Filled slot ∧
      entries.filter (fun e => e.1 = f.name) = entriesOf f.name slot) fields slots := by
  induction h with
  | nil => exact ⟨[], .nil⟩
  | @present f v fields entries hv h ih =>
    obtain ⟨hnew, hnodup⟩ := List.nodup_cons.mp hnodup
    obtain ⟨slots, hslots⟩ := ih hnodup
    have hother : ∀ g ∈ fields, f.name ≠ g.name := by
      intro g hg heq
      exact hnew (List.mem_map.mpr ⟨g, hg, heq.symm⟩)
    refine ⟨some v :: slots, .cons ⟨hv, by simp [h.filter_eq_nil hnew, entriesOf]⟩ ?_⟩
    -- the later fields do not see the new entry
    refine ((List.forall₂_and_left _ _).mpr ⟨hother, hslots⟩).imp fun g slot hg => ?_
    simpa [hg.1] using hg.2
  | @absent f fields entries hf h ih =>
    obtain ⟨hnew, hnodup⟩ := List.nodup_cons.mp hnodup
    obtain ⟨slots, hslots⟩ := ih hnodup
    exact ⟨none :: slots, .cons ⟨hf, by simp [h.filter_eq_nil hnew, entriesOf]⟩ hslots⟩

/-- Looking up a name among all entries of an object. The order of the entries does not matter, because at most
one of them has the name: a permutation of a list with at most one item is this list. -/
theorem field?_of_perm {entries known extra : List (String × Json)} {name : String}
    {slot : Option Json} (hperm : entries.Perm (known ++ extra))
    (hknown : known.filter (fun e => e.1 = name) = entriesOf name slot)
    (hextra : ∀ e ∈ extra, e.1 ≠ name) :
    field? (entries.map fun e => (some e.1, e.2)) name = some slot := by
  have hnone : extra.filter (fun e => e.1 = name) = [] := by simpa using hextra
  have hfilter : entries.filter (fun e => e.1 = name) = entriesOf name slot := by
    have hfiltered := hperm.filter fun e => e.1 = name
    rw [List.filter_append, hknown, hnone, List.append_nil] at hfiltered
    cases slot with
    | none => exact hfiltered.eq_nil
    | some v => exact List.perm_singleton.mp hfiltered
  cases slot <;> simp [field?, List.filter_map, Function.comp_def, hfilter, entriesOf]

/-- **The reader finds the fields of a record**, in whichever form it stands. An array is cut and padded to the
number of fields (`Leading.filled`); in an object each field is looked up by its name (`Kept.exists_slots`,
`field?_of_perm`). -/
theorem RecordOf.record? {fields : List Field} {j : Json} (h : RecordOf fields j)
    (hnodup : (fields.map (·.name)).Nodup) :
    ∃ slots, j.record? (fields.map (·.name)) = some slots ∧
      List.Forall₂ Field.Filled fields slots := by
  cases h with
  | array h =>
    refine ⟨_, ?_, h.filled.2⟩
    simp [Json.record?, h.filled.1]
  | @object known extra entries hknown hextra hentries =>
    obtain ⟨slots, hslots⟩ := hknown.exists_slots hnodup
    refine ⟨slots, ?_, hslots.imp fun _ _ h => h.1⟩
    -- foreign keys are no names of fields, so no lookup finds them
    have hkeys : ∀ f ∈ fields, ∀ e ∈ extra, e.1 ≠ f.name := fun f hf e he => hextra e he f hf
    have hread := ((List.forall₂_and_left _ _).mpr ⟨hkeys, hslots⟩).imp fun f slot hf =>
      field?_of_perm hentries hf.2.2 hf.1
    have hmapM := mapM_eq_some_of_forall₂ (List.forall₂_map_left_iff.mpr hread)
    simpa [Json.record?, Json.object] using hmapM

/-! ### Readers and writers

`Reads` and `Writes` relate the functions of the codec to a description of how values stand. Here are the ones
for the types at the bottom, and how a reader of values becomes one of required fields, of fields with a default
and of fields that may be `null`. -/

/-- The reader returns a value for every way to write it. -/
def Reads {α : Type} (decode : Json → Option α) (WrittenAs : α → Json → Prop) : Prop :=
  ∀ a j, WrittenAs a j → decode j = some a

/-- The writer chooses one of the ways to write a value. -/
def Writes {α : Type} (encode : α → Json) (WrittenAs : α → Json → Prop) : Prop :=
  ∀ a, WrittenAs a (encode a) ∧ (encode a).Printable

section Fields

variable {α : Type} {decode : Json → Option α} {WrittenAs : α → Json → Prop} {name : String} {a : α}
  {slot : Option Json}

/-- A required field has a value, and the reader reads it. -/
theorem Reads.required (h : Reads decode WrittenAs)
    (hslot : (Field.required name (WrittenAs a)).Filled slot) : required decode slot = some a := by
  cases slot with
  | none => exact hslot.elim
  | some j => exact h a j hslot

/-- A field with a default may be absent only if its value is the default, which is what the reader then
returns. -/
theorem Reads.optional (h : Reads decode WrittenAs) {default : α}
    (hslot : (Field.mk name (WrittenAs a) (a = default)).Filled slot) :
    optional default decode slot = some a := by
  cases slot with
  | none => exact congrArg some hslot.symm
  | some j => exact h a j hslot

end Fields

theorem Named.name? {name : String} {j : Json} (h : Named name j) : j.name? = some name := by
  cases h <;> rfl

/-- An optional value stands as `null` or as itself. -/
def NullOr {α : Type} (WrittenAs : α → Json → Prop) : Option α → Json → Prop
  | none, j => j = .null
  | some a, j => WrittenAs a j

/-- The reader for optional values looks at `null` first, so nothing else may be written as `null`. -/
theorem Reads.nullable {α : Type} {decode : Json → Option α} {WrittenAs : α → Json → Prop}
    (h : Reads decode WrittenAs) (hnull : ∀ a, ¬ WrittenAs a .null) :
    Reads (nullable decode) (NullOr WrittenAs) := by
  intro a j hj
  cases a with
  | none =>
    cases hj
    rfl
  | some a =>
    cases j with
    | null => exact absurd hj (hnull a)
    | _ => exact congrArg (Option.map some) (h a _ hj)

/-- An integer stands as its literal. -/
def Integer (n : Int) (j : Json) : Prop := j = .int n

theorem intIn?_int {lo hi n : Int} (hlo : lo ≤ n) (hhi : n ≤ hi) :
    (Json.int n).intIn? lo hi = some n := if_pos ⟨hlo, hhi⟩

/-- Every signed 64-bit integer is within the range that its reader checks, and is recovered from its value. The
same holds for the other widths below. -/
theorem reads_int64 : Reads int64? fun value => Integer value.toInt := by
  rintro value j rfl
  have hlo := value.le_toInt
  have hhi := value.toInt_lt
  rw [int64?, intIn?_int (by omega) (by omega), Option.map_some, Int64.ofInt_toInt]

theorem reads_int32 : Reads int32? fun value => Integer value.toInt := by
  rintro value j rfl
  have hlo := value.le_toInt
  have hhi := value.toInt_lt
  rw [int32?, intIn?_int (by omega) (by omega), Option.map_some, Int32.ofInt_toInt]

theorem reads_uint32 : Reads uint32? fun value => Integer value.toNat := by
  rintro value j rfl
  have hhi := value.toNat_lt
  rw [uint32?, nat32?, intIn?_int (by omega) (by omega)]
  simp

theorem reads_named {α : Type} {name : α → String} {ofName? : String → Option α}
    (h : ∀ a, ofName? (name a) = some a) :
    Reads (fun j => j.name?.bind ofName?) fun a => Named (name a) := by
  intro a j hj
  show j.name?.bind ofName? = some a
  rw [hj.name?, Option.bind_some, h]

theorem writes_named {α : Type} (name : α → String) :
    Writes (fun a => .text (name a)) fun a => Named (name a) :=
  fun a => ⟨.bare, printable_text (name a)⟩

theorem writes_int : Writes Json.int Integer := fun n => ⟨rfl, printable_int n⟩

end Json

open Json

/-! ### Instructions

How the types of instructions stand in JSON, from registers up to blocks. The definitions name fields, defaults
and forms and nothing else; what they leave open (forms of records, forms of names, spelling of the text) is
what an encoding may choose. -/

/-- A register stands as its name. -/
def Register.WrittenAs (r : Register) : Json → Prop := Named r.name

/-- A condition stands as its name. -/
def Cond.WrittenAs (c : Cond) : Json → Prop := Named c.name

/-- An operand size stands as its name. -/
def OperandSize.WrittenAs (s : OperandSize) : Json → Prop := Named s.name

/-- A mnemonic stands as its name, a conditional one as its family with the condition as data. -/
def Mnemonic.WrittenAs : Mnemonic → Json → Prop
  | .jcc cond => Tagged "jcc" cond.WrittenAs
  | .cmov cond => Tagged "cmov" cond.WrittenAs
  | m => Named m.name

/-- A memory class stands as its name, one of the frame classes with its index as data. -/
def MemoryClass.WrittenAs : MemoryClass → Json → Prop
  | .virtualReg index => Tagged "virtual_reg" (Integer index.toNat)
  | .spill slot => Tagged "spill" (Integer slot.toNat)
  | .unknown => Named "unknown"
  | .constants => Named "constants"

/-- The fields of a memory operand, each with its default. -/
def MemOperand.fields (mem : MemOperand) : List Field :=
  [⟨"base", NullOr Register.WrittenAs mem.base, mem.base = none⟩,
   ⟨"index", NullOr Register.WrittenAs mem.index, mem.index = none⟩,
   ⟨"disp", Integer mem.disp.toInt, mem.disp = 0⟩,
   ⟨"class", mem.memClass.WrittenAs, mem.memClass = .unknown⟩]

/-- A memory operand stands as a record. -/
def MemOperand.WrittenAs (mem : MemOperand) : Json → Prop := RecordOf mem.fields

/-- Operands stand as the name of their form, with data for every form but the empty one. -/
def Operands.WrittenAs : Operands → Json → Prop
  | .none => Named "none"
  | .imm value => Tagged "imm" (Integer value.toInt)
  | .reg r => Tagged "reg" r.WrittenAs
  | .mem operand => Tagged "mem" operand.WrittenAs
  | .immToReg value dst => Tagged "imm_to_reg"
      (RecordOf [.required "imm" (Integer value.toInt), .required "dst" dst.WrittenAs])
  | .immToMem value dst => Tagged "imm_to_mem"
      (RecordOf [.required "imm" (Integer value.toInt), .required "dst" dst.WrittenAs])
  | .regToReg src dst => Tagged "reg_to_reg"
      (RecordOf [.required "src" src.WrittenAs, .required "dst" dst.WrittenAs])
  | .memToReg src dst => Tagged "mem_to_reg"
      (RecordOf [.required "src" src.WrittenAs, .required "dst" dst.WrittenAs])
  | .regToMem src dst => Tagged "reg_to_mem"
      (RecordOf [.required "src" src.WrittenAs, .required "dst" dst.WrittenAs])
  | .immRegReg value src dst => Tagged "imm_reg_reg"
      (RecordOf [.required "imm" (Integer value.toInt), .required "src" src.WrittenAs,
        .required "dst" dst.WrittenAs])

/-- The fields of an instruction. Only the mnemonic has no default. -/
def Instruction.fields (inst : Instruction) : List Field :=
  [.required "mnemonic" inst.mnemonic.WrittenAs,
   ⟨"operands", inst.operands.WrittenAs, inst.operands = .none⟩,
   ⟨"size", inst.size.WrittenAs, inst.size = .s32⟩,
   ⟨"volatile", fun j => j = .bool inst.isVolatile, inst.isVolatile = false⟩]

/-- An instruction stands as a record. -/
def Instruction.WrittenAs (inst : Instruction) : Json → Prop := RecordOf inst.fields

/-- The text is an array of the block's instructions, each written in one of its ways. -/
def Encodes (block : List Instruction) (source : String) : Prop :=
  ∃ items, List.Forall₂ Instruction.WrittenAs block items ∧ (Json.arr items).Spells source

/-! ### Every encoding is read

One theorem per type, in the order of the definitions above, so that each is assembled from those before it. For
a record the proof is always the same: `RecordOf.record?` yields the values by field, and the fields are read
one by one. -/

theorem Register.reads : Reads ofJson? WrittenAs := reads_named fun r => by cases r <;> rfl

theorem Cond.reads : Reads ofJson? WrittenAs := reads_named fun c => by cases c <;> rfl

theorem OperandSize.reads : Reads ofJson? WrittenAs := reads_named fun s => by cases s <;> rfl

/-- A mnemonic without condition stands as its name, bare or as a key. Neither form is mistaken for a
conditional mnemonic, since no plain name is the name of such a family. This and that the names are read back is
evaluated over the list of all of them. -/
theorem Mnemonic.reads_plain {m : Mnemonic} (hm : m ∈ plain) {j : Json} (h : Named m.name j) :
    ofJson? j = some m := by
  have hall : ∀ m ∈ plain, m.name ≠ "jcc" ∧ m.name ≠ "cmov" ∧ ofName? m.name = some m := by
    decide +kernel
  obtain ⟨hjcc, hcmov, hname⟩ := hall m hm
  have hread : ofJson? j = j.name?.bind ofName? := by
    unfold ofJson?
    cases h <;> simp [variant?, Json.text, Json.object, hjcc, hcmov]
  rw [hread, h.name?, Option.bind_some, hname]

/-- A conditional mnemonic is read through its condition; all others are plain. -/
theorem Mnemonic.reads : Reads ofJson? WrittenAs := by
  intro m j h
  cases m with
  | jcc cond =>
    cases h with
    | keyed h => exact congrArg (Option.map Mnemonic.jcc) (Cond.reads cond _ h)
  | cmov cond =>
    cases h with
    | keyed h => exact congrArg (Option.map Mnemonic.cmov) (Cond.reads cond _ h)
  | _ => exact reads_plain (by decide) h

/-- A frame class is read through its index, the other two by their names. -/
theorem MemoryClass.reads : Reads ofJson? WrittenAs := by
  intro memClass j h
  cases memClass with
  | virtualReg index =>
    cases h with
    | keyed h => exact congrArg (Option.map MemoryClass.virtualReg) (reads_uint32 index _ h)
  | spill slot =>
    cases h with
    | keyed h => exact congrArg (Option.map MemoryClass.spill) (reads_uint32 slot _ h)
  | unknown => cases h <;> rfl
  | constants => cases h <;> rfl

/-- A memory operand is a record of four fields, all of them with a default, and two of them may be `null`. -/
theorem MemOperand.reads : Reads ofJson? WrittenAs := by
  intro operand j h
  have hnodup : ["base", "index", "disp", "class"].Nodup := by decide
  obtain ⟨slots, hrecord, hslots⟩ := h.record? hnodup
  obtain _ | ⟨hbase, _ | ⟨hindex, _ | ⟨hdisp, _ | ⟨hclass, _ | _⟩⟩⟩⟩ := hslots
  have hregister : Reads (nullable Register.ofJson?) (NullOr Register.WrittenAs) :=
    Register.reads.nullable fun r h => by cases h
  change j.record? ["base", "index", "disp", "class"] = _ at hrecord
  rw [ofJson?, hrecord]
  simp only [hregister.optional hbase, hregister.optional hindex, reads_int32.optional hdisp,
    MemoryClass.reads.optional hclass, Option.bind_eq_bind, Option.bind_some, Option.pure_def]

/-- The forms with two operands are records of two required fields, whatever the types of these are. One lemma
for the five of them. -/
theorem Operands.pair?_of_recordOf {α β : Type} {readFirst : Json → Option α}
    {readSecond : Json → Option β} {First : α → Json → Prop} {Second : β → Json → Prop}
    (hfirst : Reads readFirst First) (hsecond : Reads readSecond Second) {first second : String}
    (hne : first ≠ second) {a : α} {b : β} {j : Json}
    (h : RecordOf [.required first (First a), .required second (Second b)] j) :
    pair? first second readFirst readSecond j = some (a, b) := by
  have hnodup : [first, second].Nodup := by simpa using hne
  obtain ⟨slots, hrecord, hslots⟩ := h.record? hnodup
  obtain _ | ⟨ha, _ | ⟨hb, _ | _⟩⟩ := hslots
  change j.record? [first, second] = _ at hrecord
  rw [pair?, hrecord]
  simp only [hfirst.required ha, hsecond.required hb, Option.bind_eq_bind, Option.bind_some,
    Option.pure_def]

theorem Operands.immRegReg?_of_recordOf {value : Int64} {src dst : Register} {j : Json}
    (h : RecordOf [.required "imm" (Integer value.toInt), .required "src" src.WrittenAs,
      .required "dst" dst.WrittenAs] j) : immRegReg? j = some (.immRegReg value src dst) := by
  have hnodup : ["imm", "src", "dst"].Nodup := by decide
  obtain ⟨slots, hrecord, hslots⟩ := h.record? hnodup
  obtain _ | ⟨hvalue, _ | ⟨hsrc, _ | ⟨hdst, _ | _⟩⟩⟩ := hslots
  change j.record? ["imm", "src", "dst"] = _ at hrecord
  rw [immRegReg?, hrecord]
  simp only [reads_int64.required hvalue, Register.reads.required hsrc, Register.reads.required hdst,
    Option.bind_eq_bind, Option.bind_some, Option.pure_def]

/-- One case per form: the data is read by the lemma of its type, and the name of the form selects the
constructor. -/
theorem Operands.reads : Reads ofJson? WrittenAs := by
  intro operands j h
  cases operands with
  | none => cases h <;> rfl
  | imm value =>
    cases h with
    | keyed h => exact congrArg (Option.map Operands.imm) (reads_int64 value _ h)
  | reg r =>
    cases h with
    | keyed h => exact congrArg (Option.map Operands.reg) (Register.reads r _ h)
  | mem operand =>
    cases h with
    | keyed h => exact congrArg (Option.map Operands.mem) (MemOperand.reads operand _ h)
  | immToReg value dst =>
    cases h with
    | keyed h =>
      have hpair := pair?_of_recordOf reads_int64 Register.reads (by decide) h
      exact congrArg (Option.map fun p => Operands.immToReg p.1 p.2) hpair
  | immToMem value dst =>
    cases h with
    | keyed h =>
      have hpair := pair?_of_recordOf reads_int64 MemOperand.reads (by decide) h
      exact congrArg (Option.map fun p => Operands.immToMem p.1 p.2) hpair
  | regToReg src dst =>
    cases h with
    | keyed h =>
      have hpair := pair?_of_recordOf Register.reads Register.reads (by decide) h
      exact congrArg (Option.map fun p => Operands.regToReg p.1 p.2) hpair
  | memToReg src dst =>
    cases h with
    | keyed h =>
      have hpair := pair?_of_recordOf MemOperand.reads Register.reads (by decide) h
      exact congrArg (Option.map fun p => Operands.memToReg p.1 p.2) hpair
  | regToMem src dst =>
    cases h with
    | keyed h =>
      have hpair := pair?_of_recordOf Register.reads MemOperand.reads (by decide) h
      exact congrArg (Option.map fun p => Operands.regToMem p.1 p.2) hpair
  | immRegReg value src dst =>
    cases h with
    | keyed h => exact immRegReg?_of_recordOf h

/-- An instruction is a record of four fields, of which only the mnemonic is required. -/
theorem Instruction.reads : Reads ofJson? WrittenAs := by
  intro inst j h
  have hnodup : ["mnemonic", "operands", "size", "volatile"].Nodup := by decide
  obtain ⟨slots, hrecord, hslots⟩ := h.record? hnodup
  obtain _ | ⟨hmnemonic, _ | ⟨hoperands, _ | ⟨hsize, _ | ⟨hvolatile, _ | _⟩⟩⟩⟩ := hslots
  have hbool : Reads bool? fun b j => j = .bool b := by
    rintro b j rfl
    rfl
  change j.record? ["mnemonic", "operands", "size", "volatile"] = _ at hrecord
  rw [ofJson?, hrecord]
  simp only [Mnemonic.reads.required hmnemonic, Operands.reads.optional hoperands,
    OperandSize.reads.optional hsize, hbool.optional hvolatile, Option.bind_eq_bind,
    Option.bind_some, Option.pure_def]

/-! ### The writer's encoding

The writer always uses the same forms: objects with all fields in order, and names bare. That is one of the
encodings for each type, again assembled from the types below it. Along with it goes that the value can be
printed, since the text of a block is the printed value. -/

/-- An object with the kept entries in order, and with no others, is a record. -/
theorem Json.Kept.recordOf {fields : List Field} {entries : List (String × Json)}
    (h : Kept fields entries) : RecordOf fields (.object entries) := by
  have hextra : ∀ e ∈ ([] : List (String × Json)), ∀ f ∈ fields, e.1 ≠ f.name := by simp
  exact .object h hextra (by simp)

theorem Json.Writes.ofOption {α : Type} {encode : α → Json} {WrittenAs : α → Json → Prop}
    (h : Writes encode WrittenAs) : Writes (ofOption encode) (NullOr WrittenAs) := by
  intro a
  cases a with
  | none => exact ⟨rfl, printable_null⟩
  | some a => exact h a

theorem Json.Tagged.writes {name : String} {Data : Json → Prop} {data : Json}
    (h : Data data ∧ data.Printable) :
    Tagged name Data (.object [(name, data)]) ∧ (Json.object [(name, data)]).Printable :=
  ⟨.keyed h.1, printable_object (by simpa using h.2)⟩

/-- Two required fields, written in order. As with the readers, one lemma for the five forms with two operands. -/
theorem Json.RecordOf.writes_pair {first second : String} {First Second : Json → Prop} {a b : Json}
    (ha : First a ∧ a.Printable) (hb : Second b ∧ b.Printable) :
    RecordOf [.required first First, .required second Second] (.object [(first, a), (second, b)]) ∧
      (Json.object [(first, a), (second, b)]).Printable :=
  ⟨Kept.recordOf (.present ha.1 (.present hb.1 .nil)), printable_object (by simp [ha.2, hb.2])⟩

theorem Register.writes : Writes toJson WrittenAs := writes_named Register.name

theorem Cond.writes : Writes toJson WrittenAs := writes_named Cond.name

theorem OperandSize.writes : Writes toJson WrittenAs := writes_named OperandSize.name

theorem Mnemonic.writes : Writes toJson WrittenAs := by
  intro m
  cases m with
  | jcc cond => exact Tagged.writes (Cond.writes cond)
  | cmov cond => exact Tagged.writes (Cond.writes cond)
  | _ => exact ⟨.bare, printable_text _⟩

theorem MemoryClass.writes : Writes toJson WrittenAs := by
  intro memClass
  cases memClass with
  | virtualReg index => exact Tagged.writes (writes_int index.toNat)
  | spill slot => exact Tagged.writes (writes_int slot.toNat)
  | unknown | constants => exact ⟨.bare, printable_text _⟩

/-- All four fields are written, also those that have their default. -/
theorem MemOperand.writes : Writes toJson WrittenAs := by
  intro operand
  have hregister := Register.writes.ofOption
  constructor
  · exact Kept.recordOf (.present (hregister operand.base).1 (.present (hregister operand.index).1
      (.present rfl (.present (MemoryClass.writes operand.memClass).1 .nil))))
  · apply printable_object
    simp [(hregister operand.base).2, (hregister operand.index).2, printable_int,
      (MemoryClass.writes operand.memClass).2]

/-- One case per form, from the lemmas of the types of its data. -/
theorem Operands.writes : Writes toJson WrittenAs := by
  have himm : Writes immJson fun value => Integer value.toInt := fun value => writes_int value.toInt
  intro operands
  cases operands with
  | none => exact ⟨.bare, printable_text _⟩
  | imm value => exact Tagged.writes (himm value)
  | reg r => exact Tagged.writes (Register.writes r)
  | mem operand => exact Tagged.writes (MemOperand.writes operand)
  | immToReg value dst =>
    exact Tagged.writes (RecordOf.writes_pair (himm value) (Register.writes dst))
  | immToMem value dst =>
    exact Tagged.writes (RecordOf.writes_pair (himm value) (MemOperand.writes dst))
  | regToReg src dst =>
    exact Tagged.writes (RecordOf.writes_pair (Register.writes src) (Register.writes dst))
  | memToReg src dst =>
    exact Tagged.writes (RecordOf.writes_pair (MemOperand.writes src) (Register.writes dst))
  | regToMem src dst =>
    exact Tagged.writes (RecordOf.writes_pair (Register.writes src) (MemOperand.writes dst))
  | immRegReg value src dst =>
    refine Tagged.writes ⟨Kept.recordOf (.present (himm value).1 (.present (Register.writes src).1
      (.present (Register.writes dst).1 .nil))), ?_⟩
    apply printable_object
    simp [(himm value).2, (Register.writes src).2, (Register.writes dst).2]

theorem Instruction.writes : Writes toJson WrittenAs := by
  intro inst
  constructor
  · exact Kept.recordOf (.present (Mnemonic.writes inst.mnemonic).1
      (.present (Operands.writes inst.operands).1
        (.present (OperandSize.writes inst.size).1 (.present rfl .nil))))
  · apply printable_object
    simp [(Mnemonic.writes inst.mnemonic).2, (Operands.writes inst.operands).2,
      (OperandSize.writes inst.size).2, printable_bool]

/-- The printed array of the written instructions encodes the block: every item is one of the ways to write its
instruction, and a printable value spells its printed text (`printable_arr`). -/
theorem encodes_render (block : List Instruction) :
    Encodes block (Json.arr (block.map Instruction.toJson)).render := by
  refine ⟨block.map Instruction.toJson, ?_, printable_arr ?_⟩
  · exact List.forall₂_map_right_iff.mpr (List.forall₂_same.mpr fun inst _ => (Instruction.writes inst).1)
  · intro j hj
    obtain ⟨inst, _, rfl⟩ := List.mem_map.mp hj
    exact (Instruction.writes inst).2

/-- **Loading undoes every encoding.** Any text that encodes a block is loaded as exactly this block, and the
text that the writer prints is such a text. Parsing recovers the value that the text spells
(`parse?_of_spells`), and each of its items is read by `Instruction.reads`. -/
theorem every_encoding_loads (block : List Instruction) :
    (∀ source, Encodes block source → Instruction.loadBlock? source = some block) ∧
      Encodes block (Json.arr (block.map Instruction.toJson)).render := by
  refine ⟨?_, encodes_render block⟩
  rintro source ⟨items, hitems, hspells⟩
  have hread : List.Forall₂ (fun j inst => Instruction.ofJson? j = some inst) items block :=
    (hitems.imp fun inst j hj => Instruction.reads inst j hj).flip
  rw [Instruction.loadBlock?, parse?_of_spells hspells, Option.bind_some, list?]
  exact mapM_eq_some_of_forall₂ hread

/-- A move with the least immediate, and a return of another size than the default. -/
def mixedForms : List Instruction :=
  [{ mnemonic := .mov, operands := .immToReg (-9223372036854775808) .eax },
   { mnemonic := .ret, size := .s8 }]

/-- The move stands as an array that breaks off; the return as an object, with a foreign key first, its
mnemonic last and an escape in its name. -/
def mixedText : String :=
  "[[\"mov\",\x7b\"imm_to_reg\":[-9223372036854775808,\"eax\"]\x7d],\n" ++
  " \x7b\"x\":-1e9,\"size\":\"s8\",\"mnemonic\":\x7b\"r\\u0065t\":null\x7d\x7d]"

/-- The name of a return with its second letter as an escape of four hexadecimal digits. -/
theorem spelled_escaped : (Token.scalar (.str (some "ret"))).Spelled "\"r\\u0065t\"".toList := by
  have hunit : Content [.unit 'e'.toNat, .char 't'] "\\u0065t".toList :=
    .unit (i := 0) (j := 0) (k := 6) (l := 5) (by decide) (by decide) (by decide) (by decide)
      (.plain (by decide) (by decide) (by decide) .nil)
  have hcontent : Content [.char 'r', .unit 'e'.toNat, .char 't'] "r\\u0065t".toList :=
    .plain (by decide) (by decide) (by decide) hunit
  have htext : DenoteText [.char 'r', .unit 'e'.toNat, .char 't'] (some "ret") :=
    .char (.unit (.char .nil))
  exact .str hcontent htext

/-- The text encodes the block. The first two goals are the forms of the two instructions, the third is the
spelling, token by token and with the blanks between them. -/
theorem encodes_mixedText : Encodes mixedForms mixedText := by
  have hdigits : Digits ['9'] := ⟨by decide, List.forall_mem_singleton.mpr (by decide)⟩
  have hexponent : Exponent ['e', '9'] := @Exponent.digits 'e' [] ['9'] (by decide) (by decide) hdigits
  have hreal : (Token.scalar (.real "-1e9")).Spelled "-1e9".toList :=
    @Token.Spelled.real true 1 [] ['e', '9'] .absent hexponent (by decide)
  let move : Json := .arr [.text "mov",
    .object [("imm_to_reg", .arr [.int (-9223372036854775808), .text "eax"])]]
  let leave : Json := .object [("x", .real "-1e9"), ("size", .text "s8"),
    ("mnemonic", .object [("ret", .null)])]
  refine ⟨[move, leave], .cons ?_ (.cons ?_ .nil), ?_⟩
  · -- the array stops after its operands, which leaves two defaults out
    refine .array (.next .bare (.next (.keyed (.array ?_)) (.stop (by simp))))
    exact .next rfl (.next .bare (.stop (by simp)))
  · have hknown : Kept (Instruction.fields { mnemonic := .ret, size := .s8 })
        [("mnemonic", .object [("ret", .null)]), ("size", .text "s8")] :=
      .present .keyed (.absent rfl (.present .bare (.absent rfl .nil)))
    have hextra : ∀ e ∈ [("x", Json.real "-1e9")],
        ∀ f ∈ Instruction.fields { mnemonic := .ret, size := .s8 }, e.1 ≠ f.name := by
      simp [Instruction.fields, Field.required]
    -- the entries stand in reverse order
    exact .object hknown hextra (List.reverse_perm [_, _, _])
  · exact .token .openArr <| .token .openArr <| .token (spelled_quote "mov") <| .token .comma <|
      .token .openObj <| .token (spelled_quote "imm_to_reg") <| .token .colon <| .token .openArr <|
      .token (.int _) <| .token .comma <| .token (spelled_quote "eax") <| .token .closeArr <|
      .token .closeObj <| .token .closeArr <| .token .comma <| .blank (by decide) <|
      .blank (by decide) <| .token .openObj <| .token (spelled_quote "x") <| .token .colon <|
      .token hreal <| .token .comma <| .token (spelled_quote "size") <| .token .colon <|
      .token (spelled_quote "s8") <| .token .comma <| .token (spelled_quote "mnemonic") <|
      .token .colon <| .token .openObj <| .token spelled_escaped <| .token .colon <| .token .null <|
      .token .closeObj <| .token .closeObj <| .token .closeArr .nil

theorem every_encoding_loads_mixedText :
    Encodes mixedForms mixedText ∧ Instruction.loadBlock? mixedText = some mixedForms :=
  ⟨encodes_mixedText, (every_encoding_loads mixedForms).1 mixedText encodes_mixedText⟩

end DualIssue
