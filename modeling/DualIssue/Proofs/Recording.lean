import DualIssue.Proofs.GraphEdges
import DualIssue.Tracker
import Mathlib.Data.List.Induction

/-!
# Recording a block

The tracker records accesses in a checked computation, but no check ever fails: each edge that an access
asks for ends in a slot that exists. This module replaces recording by its pure form, says between which
slots an access asks for edges, and shows that all edges lead forward.

* **`Asks`**: which edges an access asks for, `mem_edgesFor_iff`.
* **`Tidy`**: the tables name existing slots, pending flag writers ascend, edges lead forward.
* **`record_eq_ok`**, **`ofBlock_eq_ok`**: on a tidy tracker recording is the pure `recorded`, and a
  block is recorded by the pure fold `recordedBlock`, which keeps the tracker tidy.
-/

namespace DualIssue

open DualIssue.Graph

theorem Role.reads_of_not_writes {role : Role} (h : role.writes ≠ true) : role.reads = true := by
  cases role with
  | use => rfl
  | define => exact absurd rfl h
  | useDefine => exact absurd rfl h

namespace Tracker

/-! ## Which edges an access asks for

The tracker computes lists of edges, one function for each kind of access. `Asks` says the same as a relation
with one case for each reason to ask, and proofs about edges split into these cases. The lemmas below give the
members of each list, and `mem_edgesFor_iff` puts them together. -/

/-- Recording an access of `slot` puts the first slot before the second, by an edge with this label. -/
inductive Asks (t : Tracker) (access : Access) (slot : Slot) : EdgeLabel → Slot → Slot → Prop where
  /-- A read comes after the write that it sees. -/
  | read (hres : access.resource ≠ .flags) (hreads : access.role.reads = true) {p : Slot}
      (hp : t.producer access.resource = some p) :
      Asks t access slot (t.readLabel p access.reason) p slot
  /-- A write comes after the reads of the old value. -/
  | overUse (hres : access.resource ≠ .flags) (hwrites : access.role.writes = true) {u : Slot}
      (hu : u ∈ t.users access.resource) : Asks t access slot (t.label .war access.reason) u slot
  /-- A write comes after the last write. -/
  | overWrite (hres : access.resource ≠ .flags) (hwrites : access.role.writes = true) {p : Slot}
      (hp : t.producer access.resource = some p) :
      Asks t access slot (t.label .waw access.reason) p slot
  /-- A read of the flags comes after the last of the pending writers. -/
  | readFlags (hres : access.resource = .flags) (hreads : access.role.reads = true) {last : Slot}
      (hlast : t.flagWriters.getLast? = some last) :
      Asks t access slot (t.label .raw access.reason) last slot
  /-- At a read of the flags the other pending writers come before the last. -/
  | settleFlags (hres : access.resource = .flags) (hreads : access.role.reads = true) {last w : Slot}
      (hlast : t.flagWriters.getLast? = some last) (hw : w ∈ t.flagWriters.dropLast) :
      Asks t access slot (t.label .waw access.reason) w last
  /-- A write of the flags comes after the reads of the old ones. -/
  | overFlags (hres : access.resource = .flags) (hwrites : access.role.writes = true) {r : Slot}
      (hr : r ∈ t.flagReaders) : Asks t access slot (t.label .war access.reason) r slot

section Edges

variable {t : Tracker} {access : Access} {slot source target : Slot} {label : EdgeLabel}

theorem edge_eq_edge_iff {label' : EdgeLabel} {source' target' : Slot} :
    edge label source target = edge label' source' target' ↔
      label = label' ∧ source = source' ∧ target = target' := by
  unfold edge
  rw [Edge.mk.injEq]

theorem edge_mem_map_iff {label' : EdgeLabel} {sources : List Slot} {target' : Slot} :
    edge label source target ∈ sources.map (edge label' · target') ↔
      label = label' ∧ source ∈ sources ∧ target = target' := by
  rw [List.mem_map]
  constructor
  · rintro ⟨s, hs, heq⟩
    obtain ⟨rfl, rfl, rfl⟩ := edge_eq_edge_iff.mp heq
    exact ⟨rfl, hs, rfl⟩
  · rintro ⟨rfl, hs, rfl⟩
    exact ⟨source, hs, rfl⟩

/-- A read asks for one edge, from the producer if there is one. -/
theorem mem_readEdges_iff : edge label source target ∈ t.readEdges access slot ↔
    t.producer access.resource = some source ∧ label = t.readLabel source access.reason ∧
      target = slot := by
  unfold readEdges
  split
  · rename_i p hp
    rw [List.mem_singleton, edge_eq_edge_iff, hp, Option.some.injEq]
    constructor
    · rintro ⟨rfl, rfl, rfl⟩
      exact ⟨rfl, rfl, rfl⟩
    · rintro ⟨rfl, rfl, rfl⟩
      exact ⟨rfl, rfl, rfl⟩
  · rename_i hnone
    rw [hnone]
    simp

/-- An access that reads and writes counts itself among the readers. -/
theorem mem_readers_iff {readers : List Slot} {role : Role} :
    source ∈ readers ++ (if role.reads then [slot] else []) ↔
      source ∈ readers ∨ role.reads = true ∧ source = slot := by
  rw [List.mem_append]
  split <;> simp_all

/-- A write asks for edges from all readers and from the producer. -/
theorem mem_writeEdges_iff : edge label source target ∈ t.writeEdges access slot ↔
    target = slot ∧ (label = t.label .war access.reason ∧
        (source ∈ t.users access.resource ∨ access.role.reads = true ∧ source = slot) ∨
      label = t.label .waw access.reason ∧ t.producer access.resource = some source) := by
  unfold writeEdges
  rw [List.mem_append, edge_mem_map_iff, edge_mem_map_iff, mem_readers_iff, Option.mem_toList]
  constructor
  · rintro (⟨hlabel, hsource, htarget⟩ | ⟨hlabel, hsource, htarget⟩)
    · exact ⟨htarget, Or.inl ⟨hlabel, hsource⟩⟩
    · exact ⟨htarget, Or.inr ⟨hlabel, hsource⟩⟩
  · rintro ⟨htarget, ⟨hlabel, hsource⟩ | ⟨hlabel, hsource⟩⟩
    · exact Or.inl ⟨hlabel, hsource, htarget⟩
    · exact Or.inr ⟨hlabel, hsource, htarget⟩

/-- A read of the flags asks for an edge from the last pending writer, and for edges from the others to it. -/
theorem mem_flagReadEdges_iff {reason : LatencyReason} :
    edge label source target ∈ t.flagReadEdges reason slot ↔
      ∃ last, t.flagWriters.getLast? = some last ∧
        (label = t.label .raw reason ∧ source = last ∧ target = slot ∨
          label = t.label .waw reason ∧ source ∈ t.flagWriters.dropLast ∧ target = last) := by
  unfold flagReadEdges
  split
  · rename_i last hlast
    rw [List.mem_cons, edge_eq_edge_iff, edge_mem_map_iff, hlast]
    simp
  · rename_i hnone
    rw [hnone]
    simp

/-- A write of the flags asks for edges from the readers. -/
theorem mem_flagWriteEdges_iff : edge label source target ∈ t.flagWriteEdges access slot ↔
    label = t.label .war access.reason ∧
      (source ∈ t.flagReaders ∨ access.role.reads = true ∧ source = slot) ∧ target = slot := by
  unfold flagWriteEdges
  rw [edge_mem_map_iff, mem_readers_iff]

/-- **Which edges an access adds**: those that it asks for, except from a slot to itself. One direction splits
along the lists, the other along the cases of `Asks`. -/
theorem mem_edgesFor_iff : edge label source target ∈ t.edgesFor access slot ↔
    source ≠ target ∧ Asks t access slot label source target := by
  unfold edgesFor
  rw [List.mem_filter, decide_eq_true_iff, and_comm]
  refine and_congr_right fun hne => ?_
  -- an instruction that reads what it writes is listed among the readers, but needs no edge to itself
  have hself : ∀ {old : Prop}, target = slot → (old ∨ access.role.reads = true ∧ source = slot) → old :=
    fun htarget h => h.resolve_right fun hc => hne (hc.2.trans htarget.symm)
  constructor
  · intro h
    -- the flags have tables of their own
    by_cases hres : access.resource = .flags
    · rw [if_pos hres, List.mem_append] at h
      rcases h with h | h
      · split at h
        · rename_i hreads
          obtain ⟨last, hlast, ⟨rfl, rfl, rfl⟩ | ⟨rfl, hw, rfl⟩⟩ := mem_flagReadEdges_iff.mp h
          · exact .readFlags hres hreads hlast
          · exact .settleFlags hres hreads hlast hw
        · cases h
      · split at h
        · rename_i hwrites
          obtain ⟨rfl, hsource, htarget⟩ := mem_flagWriteEdges_iff.mp h
          have hr := hself htarget hsource
          subst htarget
          exact .overFlags hres hwrites hr
        · cases h
    · rw [if_neg hres, List.mem_append] at h
      rcases h with h | h
      · split at h
        · rename_i hreads
          obtain ⟨hp, rfl, rfl⟩ := mem_readEdges_iff.mp h
          exact .read hres hreads hp
        · cases h
      · split at h
        · rename_i hwrites
          obtain ⟨htarget, ⟨rfl, hsource⟩ | ⟨rfl, hp⟩⟩ := mem_writeEdges_iff.mp h
          · have hu := hself htarget hsource
            subst htarget
            exact .overUse hres hwrites hu
          · subst htarget
            exact .overWrite hres hwrites hp
        · cases h
  · intro hasks
    cases hasks with
    | read hres hreads hp =>
      rw [if_neg hres, if_pos hreads]
      exact List.mem_append_left _ (mem_readEdges_iff.mpr ⟨hp, rfl, rfl⟩)
    | overUse hres hwrites hu =>
      rw [if_neg hres, if_pos hwrites]
      exact List.mem_append_right _ (mem_writeEdges_iff.mpr ⟨rfl, Or.inl ⟨rfl, Or.inl hu⟩⟩)
    | overWrite hres hwrites hp =>
      rw [if_neg hres, if_pos hwrites]
      exact List.mem_append_right _ (mem_writeEdges_iff.mpr ⟨rfl, Or.inr ⟨rfl, hp⟩⟩)
    | readFlags hres hreads hlast =>
      rw [if_pos hres, if_pos hreads]
      exact List.mem_append_left _ (mem_flagReadEdges_iff.mpr ⟨_, hlast, Or.inl ⟨rfl, rfl, rfl⟩⟩)
    | settleFlags hres hreads hlast hw =>
      rw [if_pos hres, if_pos hreads]
      exact List.mem_append_left _ (mem_flagReadEdges_iff.mpr ⟨_, hlast, Or.inr ⟨rfl, hw, rfl⟩⟩)
    | overFlags hres hwrites hr =>
      rw [if_pos hres, if_pos hwrites]
      exact List.mem_append_right _ (mem_flagWriteEdges_iff.mpr ⟨rfl, Or.inl hr, rfl⟩)

/-- Both labels that a read may get are priced by the table. -/
theorem latency_readLabel (t : Tracker) (producer : Slot) (reason : LatencyReason) :
    (t.readLabel producer reason).latency = t.latencies.get (t.readLabel producer reason).reason := by
  unfold readLabel
  split <;> rfl

/-- An edge costs what the table says for its reason. -/
theorem Asks.latency_eq (h : Asks t access slot label source target) :
    label.latency = t.latencies.get label.reason := by
  cases h with
  | read => exact t.latency_readLabel source access.reason
  | overUse | overWrite | readFlags | settleFlags | overFlags => rfl

theorem exists_mem_edgesFor_iff :
    (∃ e ∈ t.edgesFor access slot, e.source = source ∧ e.target = target) ↔
      source ≠ target ∧ ∃ label, Asks t access slot label source target := by
  constructor
  · rintro ⟨e, he, rfl, rfl⟩
    obtain ⟨hne, hasks⟩ := mem_edgesFor_iff.mp he
    exact ⟨hne, _, hasks⟩
  · rintro ⟨hne, label, hasks⟩
    exact ⟨_, mem_edgesFor_iff.mpr ⟨hne, hasks⟩, rfl, rfl⟩

end Edges

/-! ## Recording never fails

Edges are added with a check that their targets exist. While the last slot is recorded, all sources and targets
come from the tables or are this slot. So on a tracker whose tables name existing slots the check passes.
Sources are never above targets either, for the tables hold slots that came before. -/

/-- The tables name slots that exist, and every edge leads forward. -/
structure Tidy (t : Tracker) : Prop where
  producer_lt : ∀ {resource p}, t.producer resource = some p → p < t.graph.size
  users_lt : ∀ {resource u}, u ∈ t.users resource → u < t.graph.size
  writers_lt : ∀ {w}, w ∈ t.flagWriters → w < t.graph.size
  readers_lt : ∀ {r}, r ∈ t.flagReaders → r < t.graph.size
  writers_sorted : t.flagWriters.Pairwise (· ≤ ·)
  forward : t.graph.Forward

theorem le_getLast_of_mem_dropLast {slots : List Slot} (h : slots.Pairwise (· ≤ ·))
    {last slot : Slot} (hlast : slots.getLast? = some last) (hslot : slot ∈ slots.dropLast) :
    slot ≤ last := by
  obtain ⟨others, rfl⟩ := List.getLast?_eq_some_iff.mp hlast
  rw [List.dropLast_concat] at hslot
  exact (List.pairwise_append.mp h).2.2 slot hslot last (List.mem_singleton.mpr rfl)

/-- While the last slot is recorded, edges are asked for between existing slots and not backwards. One case for
each reason; only pending writers of the flags are put before a slot other than the last one. -/
theorem Asks.le {t : Tracker} {access : Access} {label : EdgeLabel} {slot source target : Slot}
    (ht : t.Tidy) (hslot : slot + 1 = t.graph.size) (h : Asks t access slot label source target) :
    source ≤ target ∧ target ≤ slot := by
  have hle : ∀ {s : Slot}, s < t.graph.size → s ≤ slot := by
    intro s hs
    rw [← hslot] at hs
    exact Nat.le_of_lt_succ hs
  cases h with
  | read _ _ hp => exact ⟨hle (ht.producer_lt hp), Nat.le_refl _⟩
  | overUse _ _ hu => exact ⟨hle (ht.users_lt hu), Nat.le_refl _⟩
  | overWrite _ _ hp => exact ⟨hle (ht.producer_lt hp), Nat.le_refl _⟩
  | readFlags _ _ hlast => exact ⟨hle (ht.writers_lt (List.mem_of_getLast? hlast)), Nat.le_refl _⟩
  | settleFlags _ _ hlast hw =>
    exact ⟨le_getLast_of_mem_dropLast ht.writers_sorted hlast hw,
      hle (ht.writers_lt (List.mem_of_getLast? hlast))⟩
  | overFlags _ _ hr => exact ⟨hle (ht.readers_lt hr), Nat.le_refl _⟩

/-- Every edge that an access asks for leads forward to a slot that exists. It does not lead backwards, and no
edge leads from a slot to itself. -/
theorem edgesFor_forward {t : Tracker} {access : Access} {slot : Slot} (ht : t.Tidy)
    (hslot : slot + 1 = t.graph.size) {e : Edge} (he : e ∈ t.edgesFor access slot) :
    e.source < e.target ∧ e.target < t.graph.size := by
  obtain ⟨hne, hasks⟩ := mem_edgesFor_iff.mp he
  obtain ⟨hle, htarget⟩ := hasks.le ht hslot
  exact ⟨Nat.lt_of_le_of_ne hle hne, hslot ▸ Nat.lt_succ_of_le htarget⟩

/-- The tracker after an access. -/
def recorded (t : Tracker) (access : Access) (slot : Slot) : Tracker :=
  if access.resource.isTracked then
    { t.note access slot with graph := t.graph.insertEdges (t.edgesFor access slot) }
  else t

@[simp] theorem size_recorded (t : Tracker) (access : Access) (slot : Slot) :
    (t.recorded access slot).graph.size = t.graph.size := by
  unfold recorded
  split
  · exact size_insertEdges _ _
  · rfl

/-- **Recording an access succeeds**, since all targets exist (`edgesFor_forward`). -/
theorem record_eq_ok {t : Tracker} (ht : t.Tidy) {slot : Slot} (hslot : slot + 1 = t.graph.size)
    (access : Access) : t.record access slot = .ok (t.recorded access slot) := by
  unfold record recorded
  split
  · rw [addEdges_eq_ok fun e he => (edgesFor_forward ht hslot he).2]
    rfl
  · rfl

/-- The edges after an access to a tracked resource: the old ones and those asked for. -/
theorem depends_recorded_iff {t : Tracker} (ht : t.Tidy) {slot : Slot}
    (hslot : slot + 1 = t.graph.size) {access : Access} (htracked : access.resource.isTracked = true)
    {source target : Slot} :
    (t.recorded access slot).graph.Depends source target ↔
      t.graph.Depends source target ∨
        source ≠ target ∧ ∃ label, Asks t access slot label source target := by
  rw [recorded, if_pos htracked,
    depends_insertEdges_iff fun e he => (edgesFor_forward ht hslot he).2, exists_mem_edgesFor_iff]

theorem mem_edges_recorded_iff {t : Tracker} (ht : t.Tidy) {slot : Slot}
    (hslot : slot + 1 = t.graph.size) {access : Access} (htracked : access.resource.isTracked = true)
    {e : Edge} :
    e ∈ (t.recorded access slot).graph.edges ↔ e ∈ t.graph.edges ∨ e ∈ t.edgesFor access slot := by
  rw [recorded, if_pos htracked]
  exact mem_edges_insertEdges fun e he => (edgesFor_forward ht hslot he).2

theorem depends_recorded {t : Tracker} (ht : t.Tidy) {slot : Slot} (hslot : slot + 1 = t.graph.size)
    (access : Access) {source target : Slot} (h : t.graph.Depends source target) :
    (t.recorded access slot).graph.Depends source target := by
  by_cases htracked : access.resource.isTracked = true
  · exact (depends_recorded_iff ht hslot htracked).mpr (Or.inl h)
  · rw [recorded, if_neg htracked]
    exact h

/-- What is asked for is reached: by the new edge, or because the two slots are the same. -/
theorem Asks.reaches {t : Tracker} {access : Access} {slot : Slot} (ht : t.Tidy)
    (hslot : slot + 1 = t.graph.size) (htracked : access.resource.isTracked = true)
    {label : EdgeLabel} {source target : Slot} (h : Asks t access slot label source target) :
    (t.recorded access slot).graph.Reaches source target := by
  by_cases heq : source = target
  · rw [heq]
    exact Reaches.refl _ _
  · exact ((depends_recorded_iff ht hslot htracked).mpr (Or.inr ⟨heq, label, h⟩)).reaches

theorem reaches_recorded {t : Tracker} (ht : t.Tidy) {slot : Slot} (hslot : slot + 1 = t.graph.size)
    (access : Access) {a b : Slot} (h : t.graph.Reaches a b) : (t.recorded access slot).graph.Reaches a b :=
  h.mono fun _ _ => depends_recorded ht hslot access

/-! ### The tables stay tidy

Each table is described after an access by what it was before: `producer_recorded` and the three lemmas after
it. From these it follows that only the slot that makes the access can join a table, and this slot exists. -/

theorem tidy_start (latencies : LatencyTable) : (start latencies).Tidy where
  producer_lt h := by cases h
  users_lt h := by cases h
  writers_lt h := by cases h
  readers_lt h := by cases h
  writers_sorted := List.Pairwise.nil
  forward source target h := absurd h.target_lt (Nat.not_lt_zero target)

theorem Tidy.addNode {t : Tracker} (ht : t.Tidy) (isLoad : Bool) : (t.addNode isLoad).Tidy := by
  have hlt : ∀ {s : Slot}, s < t.graph.size → s < (t.addNode isLoad).graph.size := by
    intro s hs
    show s < t.graph.addNode.size
    rw [size_addNode]
    exact Nat.lt_succ_of_lt hs
  exact {
    producer_lt := fun h => hlt (ht.producer_lt h)
    users_lt := fun h => hlt (ht.users_lt h)
    writers_lt := fun h => hlt (ht.writers_lt h)
    readers_lt := fun h => hlt (ht.readers_lt h)
    writers_sorted := ht.writers_sorted
    forward := fun source target h => ht.forward source target (depends_addNode.mp h) }

/-- What an access of the flags changes. -/
theorem recorded_of_flags (t : Tracker) {access : Access} (slot : Slot)
    (hres : access.resource = .flags) :
    t.recorded access slot =
      { t.noteFlags access.role slot with graph := t.graph.insertEdges (t.edgesFor access slot) } := by
  have htracked : access.resource.isTracked = true := by rw [hres]; rfl
  rw [recorded, if_pos htracked, note, if_pos hres]

/-- What an access of another resource changes. -/
theorem recorded_of_data (t : Tracker) {access : Access} (slot : Slot)
    (htracked : access.resource.isTracked = true) (hres : access.resource ≠ .flags) :
    t.recorded access slot =
      { t.noteAccess access slot with graph := t.graph.insertEdges (t.edgesFor access slot) } := by
  rw [recorded, if_pos htracked, note, if_neg hres]

theorem latencies_note (t : Tracker) (access : Access) (slot : Slot) :
    (t.note access slot).latencies = t.latencies := by
  unfold note
  split
  · unfold noteFlags
    extract_lets writers
    split <;> rfl
  · unfold noteAccess
    split <;> rfl

theorem latencies_recorded (t : Tracker) (access : Access) (slot : Slot) :
    (t.recorded access slot).latencies = t.latencies := by
  unfold recorded
  split
  · exact latencies_note t access slot
  · rfl

/-- A write makes the slot the producer, and nothing else touches the producers. Split by the kind of resource:
flags, tracked data, and what is not tracked. -/
theorem producer_recorded {t : Tracker} {access : Access} {slot : Slot} {resource : Resource} :
    (t.recorded access slot).producer resource =
      if access.resource = resource ∧ resource.isTracked = true ∧ resource ≠ .flags
          ∧ access.role.writes = true then some slot
      else t.producer resource := by
  by_cases hflags : access.resource = .flags
  · rw [recorded_of_flags t slot hflags, noteFlags]
    split <;> grind
  · by_cases htracked : access.resource.isTracked = true
    · rw [recorded_of_data t slot htracked hflags, noteAccess]
      split <;> grind [ResourceMap.set]
    · rw [recorded, if_neg htracked]
      grind

/-- A write leaves no users, a read joins them. -/
theorem users_recorded {t : Tracker} {access : Access} {slot : Slot} {resource : Resource} :
    (t.recorded access slot).users resource =
      if access.resource = resource ∧ resource.isTracked = true ∧ resource ≠ .flags then
        if access.role.writes then [] else t.users resource ++ [slot]
      else t.users resource := by
  by_cases hflags : access.resource = .flags
  · rw [recorded_of_flags t slot hflags, noteFlags]
    split <;> grind
  · by_cases htracked : access.resource.isTracked = true
    · rw [recorded_of_data t slot htracked hflags, noteAccess]
      split <;> grind [ResourceMap.set]
    · rw [recorded, if_neg htracked]
      grind

/-- A read of the flags leaves one pending writer, a write joins the pending ones. -/
theorem flagWriters_recorded {t : Tracker} {access : Access} {slot : Slot} :
    (t.recorded access slot).flagWriters =
      if access.resource = .flags then
        (if access.role.reads then t.flagWriters.getLast?.toList else t.flagWriters)
          ++ (if access.role.writes then [slot] else [])
      else t.flagWriters := by
  by_cases hflags : access.resource = .flags
  · rw [recorded_of_flags t slot hflags, noteFlags, if_pos hflags]
    split <;> simp
  · rw [if_neg hflags]
    by_cases htracked : access.resource.isTracked = true
    · rw [recorded_of_data t slot htracked hflags, noteAccess]
      split <;> rfl
    · rw [recorded, if_neg htracked]

/-- A write of the flags leaves no readers, a read joins them. -/
theorem flagReaders_recorded {t : Tracker} {access : Access} {slot : Slot} :
    (t.recorded access slot).flagReaders =
      if access.resource = .flags then
        if access.role.writes then [] else t.flagReaders ++ [slot]
      else t.flagReaders := by
  by_cases hflags : access.resource = .flags
  · rw [recorded_of_flags t slot hflags, noteFlags, if_pos hflags]
    split <;> rfl
  · rw [if_neg hflags]
    by_cases htracked : access.resource.isTracked = true
    · rw [recorded_of_data t slot htracked hflags, noteAccess]
      split <;> rfl
    · rw [recorded, if_neg htracked]

theorem toList_getLast?_sublist (slots : List Slot) : slots.getLast?.toList.Sublist slots := by
  cases hlast : slots.getLast? with
  | none => exact List.nil_sublist _
  | some last =>
    obtain ⟨others, rfl⟩ := List.getLast?_eq_some_iff.mp hlast
    exact List.sublist_append_right others [last]

/-- The pending writers that an access leaves are some of those before it. -/
theorem keptWriters_sublist (t : Tracker) (role : Role) :
    (if role.reads then t.flagWriters.getLast?.toList else t.flagWriters).Sublist t.flagWriters := by
  split
  · exact toList_getLast?_sublist _
  · exact List.Sublist.refl _

section Joined

-- only the slot that makes the access joins a table

variable {t : Tracker} {access : Access} {slot : Slot}

theorem of_producer_recorded {resource : Resource} {p : Slot}
    (h : (t.recorded access slot).producer resource = some p) :
    t.producer resource = some p ∨ p = slot := by
  rw [producer_recorded] at h
  split at h
  · cases h
    exact Or.inr rfl
  · exact Or.inl h

theorem of_mem_users_recorded {resource : Resource} {u : Slot}
    (h : u ∈ (t.recorded access slot).users resource) : u ∈ t.users resource ∨ u = slot := by
  rw [users_recorded] at h
  split at h
  · split at h
    · cases h
    · exact (List.mem_append.mp h).imp_right List.mem_singleton.mp
  · exact Or.inl h

theorem of_mem_flagWriters_recorded {w : Slot} (h : w ∈ (t.recorded access slot).flagWriters) :
    w ∈ t.flagWriters ∨ w = slot := by
  rw [flagWriters_recorded] at h
  split at h
  · rcases List.mem_append.mp h with h | h
    · exact Or.inl ((keptWriters_sublist t access.role).mem h)
    · split at h
      · exact Or.inr (List.mem_singleton.mp h)
      · cases h
  · exact Or.inl h

theorem of_mem_flagReaders_recorded {r : Slot} (h : r ∈ (t.recorded access slot).flagReaders) :
    r ∈ t.flagReaders ∨ r = slot := by
  rw [flagReaders_recorded] at h
  split at h
  · split at h
    · cases h
    · exact (List.mem_append.mp h).imp_right List.mem_singleton.mp
  · exact Or.inl h

end Joined

/-- **Recording an access keeps the tracker tidy.** What joins a table is the last slot, so it exists, and among
the pending writers of the flags it is the greatest. New edges lead forward by `Asks.le`. -/
theorem Tidy.recorded {t : Tracker} (ht : t.Tidy) {slot : Slot} (hslot : slot + 1 = t.graph.size)
    (access : Access) : (t.recorded access slot).Tidy := by
  have hlt : ∀ {old : Prop} {s : Slot}, (old → s < t.graph.size) → old ∨ s = slot →
      s < (t.recorded access slot).graph.size := by
    intro old s hold h
    rw [size_recorded]
    rcases h with h | rfl
    · exact hold h
    · rw [← hslot]
      exact Nat.lt_succ_self s
  constructor
  case producer_lt => exact fun h => hlt ht.producer_lt (of_producer_recorded h)
  case users_lt => exact fun h => hlt ht.users_lt (of_mem_users_recorded h)
  case writers_lt => exact fun h => hlt ht.writers_lt (of_mem_flagWriters_recorded h)
  case readers_lt => exact fun h => hlt ht.readers_lt (of_mem_flagReaders_recorded h)
  case writers_sorted =>
    have hkept := keptWriters_sublist t access.role
    rw [flagWriters_recorded]
    split
    · refine List.pairwise_append.mpr ⟨ht.writers_sorted.sublist hkept, ?_, ?_⟩
      · split
        · exact List.pairwise_singleton _ _
        · exact List.Pairwise.nil
      · -- the new writer is the last slot of all
        intro w hw last hlast
        split at hlast
        · rw [List.mem_singleton.mp hlast]
          have hw : w < slot + 1 := hslot ▸ ht.writers_lt (hkept.mem hw)
          exact Nat.le_of_lt_succ hw
        · cases hlast
    · exact ht.writers_sorted
  case forward =>
    intro source target hd
    by_cases htracked : access.resource.isTracked = true
    · rcases (depends_recorded_iff ht hslot htracked).mp hd with hd | ⟨hne, _, hasks⟩
      · exact ht.forward source target hd
      · exact Nat.lt_of_le_of_ne (hasks.le ht hslot).1 hne
    · rw [Tracker.recorded, if_neg htracked] at hd
      exact ht.forward source target hd

/-! ## Whole blocks

The pure forms of recording are folds. That they are what the checked computation returns, and that they keep
the tracker tidy, is shown by one and the same induction (`foldlM_ok_of_forall`). -/

/-- The tracker after accesses of one slot. -/
def recordedAll (t : Tracker) (accesses : List Access) (slot : Slot) : Tracker :=
  accesses.foldl (fun t access => t.recorded access slot) t

/-- The tracker after one more instruction. -/
def recordedInstruction (t : Tracker) (inst : Instruction) : Tracker :=
  (t.addNode inst.isMemoryLoad).recordedAll (recordedAccesses inst) t.graph.size

/-- The tracker after a block. -/
def recordedBlock (latencies : LatencyTable) (block : List Instruction) : Tracker :=
  block.foldl recordedInstruction (start latencies)

@[simp] theorem size_graph_addNode (t : Tracker) (isLoad : Bool) :
    (t.addNode isLoad).graph.size = t.graph.size + 1 := size_addNode t.graph

/-- Recording a list of accesses succeeds and keeps the tracker tidy. -/
theorem recordAll_eq_ok {t : Tracker} (ht : t.Tidy) {slot : Slot} (hslot : slot + 1 = t.graph.size)
    (accesses : List Access) :
    t.recordAll accesses slot = .ok (t.recordedAll accesses slot) ∧
      (t.recordedAll accesses slot).Tidy ∧ slot + 1 = (t.recordedAll accesses slot).graph.size := by
  refine foldlM_ok_of_forall (P := fun t : Tracker => t.Tidy ∧ slot + 1 = t.graph.size) ⟨ht, hslot⟩ ?_
  intro t ⟨ht, hslot⟩ access _
  refine ⟨record_eq_ok ht hslot access, ht.recorded hslot access, ?_⟩
  rw [size_recorded]
  exact hslot

theorem recordedAll_append (t : Tracker) (front back : List Access) (slot : Slot) :
    t.recordedAll (front ++ back) slot = (t.recordedAll front slot).recordedAll back slot :=
  List.foldl_append

/-- Edges stay. Induction on the accesses. -/
theorem mem_edges_recordedAll {t : Tracker} (ht : t.Tidy) {slot : Slot} (hslot : slot + 1 = t.graph.size)
    {e : Edge} (he : e ∈ t.graph.edges) (accesses : List Access) :
    e ∈ (t.recordedAll accesses slot).graph.edges := by
  induction accesses generalizing t with
  | nil => exact he
  | cons access rest ih =>
    refine ih (ht.recorded hslot access) (by rw [size_recorded]; exact hslot) ?_
    show e ∈ (t.recorded access slot).graph.edges
    by_cases htracked : access.resource.isTracked = true
    · exact (mem_edges_recorded_iff ht hslot htracked).mpr (Or.inl he)
    · rw [recorded, if_neg htracked]
      exact he

/-- **What an access asks for when its turn comes**, it gets, and the accesses behind it do not take it away. -/
theorem Asks.mem_edges_recordedAll {t : Tracker} (ht : t.Tidy) {slot : Slot}
    (hslot : slot + 1 = t.graph.size) {front : List Access} {access : Access}
    (htracked : access.resource.isTracked = true) {label : EdgeLabel} {source target : Slot}
    (h : Asks (t.recordedAll front slot) access slot label source target) (hne : source ≠ target)
    (back : List Access) :
    edge label source target ∈ (t.recordedAll (front ++ access :: back) slot).graph.edges := by
  obtain ⟨_, hfront, hsize⟩ := recordAll_eq_ok ht hslot front
  rw [recordedAll_append]
  refine Tracker.mem_edges_recordedAll (hfront.recorded hsize access) ?_ ?_ back
  · rw [size_recorded]
    exact hsize
  · exact (mem_edges_recorded_iff hfront hsize htracked).mpr (Or.inr (mem_edgesFor_iff.mpr ⟨hne, h⟩))

/-- Recording an instruction succeeds, keeps the tracker tidy and fills one slot. -/
theorem recordInstruction_eq_ok {t : Tracker} (ht : t.Tidy) (inst : Instruction) :
    t.recordInstruction inst = .ok (t.recordedInstruction inst) ∧
      (t.recordedInstruction inst).Tidy ∧
      (t.recordedInstruction inst).graph.size = t.graph.size + 1 := by
  obtain ⟨hok, htidy, hsize⟩ := recordAll_eq_ok (ht.addNode inst.isMemoryLoad)
    (size_graph_addNode t inst.isMemoryLoad).symm (recordedAccesses inst)
  exact ⟨hok, htidy, hsize.symm⟩

/-- A recorded block is tidy and has one slot for each instruction. Induction on the block from its end. -/
theorem tidy_recordedBlock (latencies : LatencyTable) (block : List Instruction) :
    (recordedBlock latencies block).Tidy ∧
      (recordedBlock latencies block).graph.size = block.length := by
  induction block using List.reverseRecOn with
  | nil => exact ⟨tidy_start latencies, rfl⟩
  | append_singleton block inst ih =>
    obtain ⟨_, htidy, hsize⟩ := recordInstruction_eq_ok ih.1 inst
    rw [recordedBlock, List.foldl_append, List.length_append]
    exact ⟨htidy, by rw [← ih.2]; exact hsize⟩

/-- **Recording a block succeeds.** Every instruction does (`recordInstruction_eq_ok`) and leaves a tidy tracker
to the next. -/
theorem ofBlock_eq_ok (latencies : LatencyTable) (block : List Instruction) :
    ofBlock latencies block = .ok (recordedBlock latencies block) :=
  (foldlM_ok_of_forall (P := Tidy) (tidy_start latencies) fun _ ht inst _ =>
    ⟨(recordInstruction_eq_ok ht inst).1, (recordInstruction_eq_ok ht inst).2.1⟩).1

end Tracker

end DualIssue
