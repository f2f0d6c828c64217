import DualIssue.Proofs.AccessLog

/-!
# Every edge has a cause

A stale entry in the tables of the tracker would do no visible harm: it would only put instructions in an
order that nothing asks for. There are none. The tables name the last writer of a resource and the readers
since, so each edge stands for a value that is read, or overwritten, or for two writes in a row; of the
writers of the flags alone more than two can be in one chain.

* **`Cause`**: what the log has to say to justify an edge.
* **`Current`**: the tables say who wrote last and who has read since, as the log does.
* **`Caused`**: every edge has its cause in the log. `caused_recordedBlock` gets it from `Current`, access by
  access.
* **`finish_edges_caused`**: hence the graph of a closed block has no other edges.
-/

namespace DualIssue

open DualIssue.Graph

namespace Tracker

/-! ## What the log says

The log has the slot, the resource and the role of every access. `Cause` is stated about the log alone, so that
it cannot be true for the reason that the tracker believes it. The lemmas of this section say what one more
access changes: it adds a touch at the last slot, which is never strictly between two earlier ones. -/

/-- The slot has an access to the resource in the log, in one of the roles asked for. -/
def Touches (log : List (Slot × Access)) (how : Role → Bool) (slot : Slot) (resource : Resource) : Prop :=
  ∃ access, (slot, access) ∈ log ∧ access.resource = resource ∧ how access.role = true

abbrev Reads (log : List (Slot × Access)) : Slot → Resource → Prop := Touches log Role.reads

abbrev Writes (log : List (Slot × Access)) : Slot → Resource → Prop := Touches log Role.writes

/-- No slot strictly between two others writes the resource. -/
def Unwritten (log : List (Slot × Access)) (resource : Resource) (first second : Slot) : Prop :=
  ∀ k, first < k → k < second → ¬ Writes log k resource

/-- What justifies an edge between two slots. The flags may be written again between two writes, because the
writers of the flags are put before the last of them and not before the next. -/
inductive Cause (log : List (Slot × Access)) (first second : Slot) : Hazard → Prop where
  | readAfterWrite {resource : Resource} (hfirst : Writes log first resource)
      (hsecond : Reads log second resource) (hbetween : Unwritten log resource first second) :
      Cause log first second .raw
  | writeAfterRead {resource : Resource} (hfirst : Reads log first resource)
      (hsecond : Writes log second resource) (hbetween : Unwritten log resource first second) :
      Cause log first second .war
  | writeAfterWrite {resource : Resource} (hfirst : Writes log first resource)
      (hsecond : Writes log second resource)
      (hbetween : resource ≠ .flags → Unwritten log resource first second) :
      Cause log first second .waw

section Log

variable {log : List (Slot × Access)} {how : Role → Bool} {slot k first second : Slot}
  {access : Access} {resource : Resource}

/-- The longer log has the touches of the log and those of the new access. -/
theorem touches_concat_iff :
    Touches (log ++ [(slot, access)]) how k resource ↔
      Touches log how k resource ∨ k = slot ∧ access.resource = resource ∧ how access.role = true := by
  unfold Touches
  constructor
  · rintro ⟨a, ha, hres, hhow⟩
    rcases List.mem_append.mp ha with ha | ha
    · exact Or.inl ⟨a, ha, hres, hhow⟩
    · cases List.mem_singleton.mp ha
      exact Or.inr ⟨rfl, hres, hhow⟩
  · rintro (⟨a, ha, hres, hhow⟩ | ⟨rfl, hres, hhow⟩)
    · exact ⟨a, List.mem_append_left _ ha, hres, hhow⟩
    · exact ⟨access, List.mem_append_right _ (List.mem_singleton.mpr rfl), hres, hhow⟩

theorem Touches.concat (h : Touches log how k resource) :
    Touches (log ++ [(slot, access)]) how k resource := touches_concat_iff.mpr (Or.inl h)

theorem touches_new (hres : access.resource = resource) (hhow : how access.role = true) :
    Touches (log ++ [(slot, access)]) how slot resource :=
  touches_concat_iff.mpr (Or.inr ⟨rfl, hres, hhow⟩)

/-- The slot that makes the new access is not before the second, so it does not come between. -/
theorem Unwritten.concat (h : Unwritten log resource first second) (hslot : second ≤ slot) :
    Unwritten (log ++ [(slot, access)]) resource first second := by
  intro k hfirst hsecond hk
  rcases touches_concat_iff.mp hk with hold | ⟨rfl, _⟩
  · exact h k hfirst hsecond hold
  · exact Nat.not_lt.mpr hslot hsecond

/-- If nothing after a slot has written the resource, nothing has between that slot and a new one. -/
theorem unwritten_of_forall_le (h : ∀ k, Writes log k resource → k ≤ first) :
    Unwritten (log ++ [(slot, access)]) resource first slot := by
  intro k hfirst hslot hk
  rcases touches_concat_iff.mp hk with hold | ⟨rfl, _⟩
  · exact Nat.not_lt.mpr (h k hold) hfirst
  · exact Nat.lt_irrefl _ hslot

/-- A cause stays a cause: its accesses are still in the log, and the new one does not come between. -/
theorem Cause.concat {hazard : Hazard} (h : Cause log first second hazard) (hslot : second ≤ slot) :
    Cause (log ++ [(slot, access)]) first second hazard := by
  cases h with
  | readAfterWrite hfirst hsecond hbetween =>
    exact .readAfterWrite hfirst.concat hsecond.concat (hbetween.concat hslot)
  | writeAfterRead hfirst hsecond hbetween =>
    exact .writeAfterRead hfirst.concat hsecond.concat (hbetween.concat hslot)
  | writeAfterWrite hfirst hsecond hbetween =>
    exact .writeAfterWrite hfirst.concat hsecond.concat fun hres => (hbetween hres).concat hslot

end Log

/-! ## The tables are current

For the flags the tracker has other tables than for data, but they answer the same two questions: who wrote
last, and who has read since. `lastWriter` and `readers` ask them of any resource, and the equations
`lastWriter_recorded` and `readers_recorded` say how one access changes the answers, without a case for the
flags. -/

/-- The slot that a read of the resource would see. -/
def lastWriter (t : Tracker) (resource : Resource) : Option Slot :=
  if resource = .flags then t.flagWriters.getLast? else t.producer resource

/-- The slots that have read the resource since it was last written. -/
def readers (t : Tracker) (resource : Resource) : List Slot :=
  if resource = .flags then t.flagReaders else t.users resource

theorem lastWriter_flags (t : Tracker) : t.lastWriter .flags = t.flagWriters.getLast? := if_pos rfl

theorem lastWriter_of_ne {t : Tracker} {resource : Resource} (h : resource ≠ .flags) :
    t.lastWriter resource = t.producer resource := if_neg h

theorem readers_flags (t : Tracker) : t.readers .flags = t.flagReaders := if_pos rfl

theorem readers_of_ne {t : Tracker} {resource : Resource} (h : resource ≠ .flags) :
    t.readers resource = t.users resource := if_neg h

/-- A write makes its slot the last writer of its resource; a read of the flags drops pending writers, but not
the last. -/
theorem lastWriter_recorded {t : Tracker} {access : Access} {slot : Slot}
    (htracked : access.resource.isTracked = true) (resource : Resource) :
    (t.recorded access slot).lastWriter resource =
      if access.resource = resource ∧ access.role.writes = true then some slot
      else t.lastWriter resource := by
  by_cases hflags : resource = .flags
  · rw [hflags, lastWriter_flags, lastWriter_flags, flagWriters_recorded]
    by_cases hres : access.resource = .flags
    · cases hrole : access.role with
      | use => cases t.flagWriters.getLast? <;> simp [hres, Role.reads, Role.writes]
      | define | useDefine => simp [hres, Role.writes]
    · simp [hres]
  · rw [lastWriter_of_ne hflags, lastWriter_of_ne hflags, producer_recorded]
    grind

/-- A write starts the readers of its resource anew, and an access that only reads joins them. -/
theorem readers_recorded {t : Tracker} {access : Access} {slot : Slot}
    (htracked : access.resource.isTracked = true) (resource : Resource) :
    (t.recorded access slot).readers resource =
      if access.resource = resource then
        if access.role.writes then [] else t.readers resource ++ [slot]
      else t.readers resource := by
  by_cases hflags : resource = .flags
  · rw [hflags, readers_flags, readers_flags, flagReaders_recorded]
  · rw [readers_of_ne hflags, readers_of_ne hflags, users_recorded]
    grind

/-- The tables know what the log says about the last writes. -/
structure Current (log : List (Slot × Access)) (t : Tracker) : Prop where
  /-- The last writer has written, and nothing has written later. -/
  writer : ∀ {resource p}, t.lastWriter resource = some p →
    Writes log p resource ∧ ∀ k, Writes log k resource → k ≤ p
  /-- A reader has read, and nothing has written later. -/
  reader : ∀ {resource u}, u ∈ t.readers resource →
    Reads log u resource ∧ ∀ k, Writes log k resource → k ≤ u
  pending : ∀ {w}, w ∈ t.flagWriters → Writes log w .flags

theorem current_start (latencies : LatencyTable) : Current [] (start latencies) where
  writer h := by
    unfold lastWriter at h
    split at h <;> cases h
  reader h := by
    unfold readers at h
    split at h <;> cases h
  pending h := by cases h

section Step

variable {log : List (Slot × Access)} {t : Tracker} {slot : Slot} {access : Access}

/-- **The step of the tables.** The new slot is the last of all, so it may become a last writer or a reader;
whatever else is in the tables was in them before, and unless the new access is a write nothing has been written
since. -/
theorem Current.recorded (h : Current log t) (htracked : access.resource.isTracked = true)
    (hlog : ∀ e ∈ log, e.1 ≤ slot) : Current (log ++ [(slot, access)]) (t.recorded access slot) := by
  -- the slot that is being recorded is the last of all
  have hnew : ∀ {resource : Resource} (k : Slot),
      Writes (log ++ [(slot, access)]) k resource → k ≤ slot := by
    intro resource k hk
    rcases touches_concat_iff.mp hk with ⟨a, ha, _⟩ | ⟨rfl, _⟩
    · exact hlog _ ha
    · exact Nat.le_refl _
  -- as long as the new access is no write, old bounds on the writers stay
  have hold : ∀ {resource : Resource} {bound : Slot}, (∀ k, Writes log k resource → k ≤ bound) →
      ¬ (access.resource = resource ∧ access.role.writes = true) →
      ∀ k, Writes (log ++ [(slot, access)]) k resource → k ≤ bound := by
    intro resource bound hbound hnot k hk
    rcases touches_concat_iff.mp hk with hk | ⟨_, hwrite⟩
    · exact hbound k hk
    · exact absurd hwrite hnot
  constructor
  case writer =>
    intro resource p hp
    rw [lastWriter_recorded htracked] at hp
    split at hp
    · rename_i hwrite
      cases hp
      exact ⟨touches_new hwrite.1 hwrite.2, hnew⟩
    · rename_i hnot
      obtain ⟨hwritten, hbound⟩ := h.writer hp
      exact ⟨hwritten.concat, hold hbound hnot⟩
  case reader =>
    intro resource u hu
    rw [readers_recorded htracked] at hu
    split at hu
    · rename_i hres
      split at hu
      · cases hu
      · rename_i hwrites
        rcases List.mem_append.mp hu with hu | hu
        · obtain ⟨hread, hbound⟩ := h.reader hu
          exact ⟨hread.concat, hold hbound fun hc => hwrites hc.2⟩
        · rw [List.mem_singleton.mp hu]
          exact ⟨touches_new hres (Role.reads_of_not_writes hwrites), hnew⟩
    · rename_i hres
      obtain ⟨hread, hbound⟩ := h.reader hu
      exact ⟨hread.concat, hold hbound fun hc => hres hc.1⟩
  case pending =>
    intro w hw
    rw [flagWriters_recorded] at hw
    split at hw
    · rename_i hres
      rcases List.mem_append.mp hw with hw | hw
      · exact (h.pending ((keptWriters_sublist t access.role).mem hw)).concat
      · split at hw
        · rename_i hwrites
          rw [List.mem_singleton.mp hw]
          exact touches_new hres hwrites
        · cases hw
    · exact (h.pending hw).concat

/-- **An edge that an access asks for has a cause.** One case for each kind of edge in `Asks`. The source comes
from a table, so `Current` says that the log has its access and that nothing has written since; the target is
the new access, or the last of the pending writers. -/
theorem Asks.cause (h : Current log t) {label : EdgeLabel} {source target : Slot}
    (hasks : Asks t access slot label source target) :
    Cause (log ++ [(slot, access)]) source target label.hazard := by
  cases hasks with
  | read hres hreads hp =>
    obtain ⟨hwritten, hbound⟩ := h.writer ((lastWriter_of_ne hres).trans hp)
    have hhazard : (t.readLabel source access.reason).hazard = .raw := by
      unfold readLabel
      split <;> rfl
    rw [hhazard]
    exact .readAfterWrite hwritten.concat (touches_new rfl hreads) (unwritten_of_forall_le hbound)
  | overUse hres hwrites hu =>
    obtain ⟨hread, hbound⟩ := h.reader ((readers_of_ne hres).symm ▸ hu)
    exact .writeAfterRead hread.concat (touches_new rfl hwrites) (unwritten_of_forall_le hbound)
  | overWrite hres hwrites hp =>
    obtain ⟨hwritten, hbound⟩ := h.writer ((lastWriter_of_ne hres).trans hp)
    exact .writeAfterWrite hwritten.concat (touches_new rfl hwrites)
      fun _ => unwritten_of_forall_le hbound
  | readFlags hres hreads hlast =>
    obtain ⟨hwritten, hbound⟩ := h.writer ((lastWriter_flags t).trans hlast)
    exact .readAfterWrite hwritten.concat (touches_new hres hreads) (unwritten_of_forall_le hbound)
  -- between two writers of the flags there may be others
  | settleFlags hres hreads hlast hw =>
    exact .writeAfterWrite (h.pending (List.dropLast_subset _ hw)).concat
      (h.pending (List.mem_of_getLast? hlast)).concat fun hne => absurd rfl hne
  | overFlags hres hwrites hr =>
    obtain ⟨hread, hbound⟩ := h.reader ((readers_flags t).symm ▸ hr)
    exact .writeAfterRead hread.concat (touches_new hres hwrites) (unwritten_of_forall_le hbound)

end Step

/-! ## The edges are caused

The edges are carried along with the tables: those that were there keep their causes, and those that an access
adds are the ones it asks for. Closing a block adds edges between writers of the flags only. -/

/-- Every edge has a cause in the log and costs what the table says for its reason. -/
def Caused (log : List (Slot × Access)) (latencies : LatencyTable) (edges : List Edge) : Prop :=
  ∀ e ∈ edges, Cause log e.source e.target e.hazard ∧ e.latency = latencies.get e.reason

/-- An access keeps the edges caused. An old edge ends at a slot no later than the current one, which is what
`Cause.concat` needs. -/
theorem Caused.recorded {log : List (Slot × Access)} {latencies : LatencyTable} {t : Tracker}
    {slot : Slot} {access : Access} (hcaused : Caused log latencies t.graph.edges)
    (hcurrent : Current log t) (hlatencies : t.latencies = latencies) (ht : t.Tidy)
    (hslot : slot + 1 = t.graph.size) (htracked : access.resource.isTracked = true) :
    Caused (log ++ [(slot, access)]) latencies (t.recorded access slot).graph.edges := by
  intro e he
  rcases (mem_edges_recorded_iff ht hslot htracked).mp he with hold | hnew
  · obtain ⟨hcause, hlatency⟩ := hcaused e hold
    have htarget : e.target < slot + 1 := hslot ▸ (depends_of_mem_edges hold).target_lt
    exact ⟨hcause.concat (Nat.le_of_lt_succ htarget), hlatency⟩
  · have hasks := (mem_edgesFor_iff.mp hnew).2
    exact ⟨hasks.cause hcurrent, by rw [← hlatencies]; exact hasks.latency_eq⟩

/-- The log of a block has accesses to tracked resources only. -/
theorem tracked_of_mem_accessLog {block : List Instruction} {e : Slot × Access}
    (h : e ∈ accessLog block) : e.2.resource.isTracked = true := by
  obtain ⟨inst, _, hmem⟩ := mem_accessLog_iff.mp h
  exact allTracked_recordedAccesses inst e.2 hmem

/-- **Tables and edges of every block.** By `recordedBlock_induction` with three statements at once, since the
edges of an access are caused by the tables before it. -/
theorem caused_recordedBlock (latencies : LatencyTable) (block : List Instruction) :
    Current (accessLog block) (recordedBlock latencies block) ∧
      (recordedBlock latencies block).latencies = latencies ∧
      Caused (accessLog block) latencies (recordedBlock latencies block).graph.edges := by
  -- recording skips what is not tracked, but there is no such access in the log of a block
  refine recordedBlock_induction
    (P := fun log t => (∀ e ∈ log, e.2.resource.isTracked = true) →
      Current log t ∧ t.latencies = latencies ∧ Caused log latencies t.graph.edges) ?_ ?_ ?_ block
    fun _ he => tracked_of_mem_accessLog he
  · intro log t slot access ht hslot hlog hP htracked
    obtain ⟨hcurrent, hlatencies, hcaused⟩ := hP fun e he => htracked e (List.mem_append_left _ he)
    have haccess : access.resource.isTracked = true :=
      htracked (slot, access) (List.mem_append_right _ (List.mem_singleton.mpr rfl))
    exact ⟨hcurrent.recorded haccess hlog, (latencies_recorded t access slot).trans hlatencies,
      hcaused.recorded hcurrent hlatencies ht hslot haccess⟩
  · exact fun _ => ⟨current_start latencies, rfl, fun e he => nomatch he⟩
  · intro log t isLoad hP htracked
    obtain ⟨hcurrent, hlatencies, hcaused⟩ := hP htracked
    exact ⟨⟨hcurrent.writer, hcurrent.reader, hcurrent.pending⟩, hlatencies,
      fun e he => hcaused e (mem_edges_addNode.mp he)⟩

/-- The edges that keep the last writer of the flags last are between writers of the flags. -/
theorem Current.caused_liveOutEdges {log : List (Slot × Access)} {t : Tracker} (h : Current log t) :
    Caused log t.latencies t.liveOutEdges := by
  intro e he
  unfold liveOutEdges at he
  split at he
  · rename_i last hlast
    obtain ⟨w, hw, rfl⟩ := List.mem_map.mp he
    exact ⟨.writeAfterWrite (h.pending (List.dropLast_subset _ hw))
      (h.pending (List.mem_of_getLast? hlast)) fun hne => absurd rfl hne, rfl⟩
  · cases he

/-- The edges of a closed block are those of the tracker and those that keep the last writer last. -/
theorem mem_edges_of_finish {t : Tracker} (ht : t.Tidy) {g : Graph} (h : t.finish = .ok g) {e : Edge} :
    e ∈ g.edges ↔ e ∈ t.graph.edges ∨ e ∈ t.liveOutEdges := by
  have hlt : ∀ e ∈ t.liveOutEdges, e.target < t.graph.size := by
    intro e he
    obtain ⟨_, htarget⟩ := exists_mem_liveOutEdges_iff.mp ⟨e, he, rfl, rfl⟩
    exact ht.writers_lt (List.mem_of_getLast? htarget)
  rw [finish, fixLiveOut, addEdges_eq_ok hlt] at h
  rw [mem_edges_of_invert h, mem_edges_insertEdges hlt]

/-- **No edge without a cause.** Recording a block and closing it succeeds, and every edge of the graph leads
forward, costs what the table says for its reason, and is asked for by two accesses in the log of the block:
a read of what the source has written last, a write of what the source has read and nothing has written since, or
a write of what the source has written, last unless it is the flags. -/
theorem finish_edges_caused (latencies : LatencyTable) (block : List Instruction) :
    ∃ t g, ofBlock latencies block = .ok t ∧ t.finish = .ok g ∧
      ∀ e ∈ g.edges, e.source < e.target ∧ e.latency = latencies.get e.reason ∧
        Cause (accessLog block) e.source e.target e.hazard := by
  obtain ⟨g, hfinish, hcloses⟩ := finish_recordedBlock latencies block
  obtain ⟨hcurrent, hlatencies, hcaused⟩ := caused_recordedBlock latencies block
  refine ⟨_, g, ofBlock_eq_ok latencies block, hfinish, fun e he => ?_⟩
  have hforward := hcloses.forward e.source e.target (depends_of_mem_edges he)
  rcases (mem_edges_of_finish (tidy_recordedBlock latencies block).1 hfinish).mp he with hold | hlive
  · obtain ⟨hcause, hlatency⟩ := hcaused e hold
    exact ⟨hforward, hlatency, hcause⟩
  · obtain ⟨hcause, hlatency⟩ := hcurrent.caused_liveOutEdges e hlive
    exact ⟨hforward, hlatencies ▸ hlatency, hcause⟩

/-- A register is written, read and written again, and a jump reads the flags of the second addition. -/
def hazards : List Instruction :=
  [{ mnemonic := .mov, operands := .immToReg 1 .eax },
   { mnemonic := .add, operands := .regToReg .eax .ecx },
   { mnemonic := .mov, operands := .immToReg 2 .eax },
   { mnemonic := .add, operands := .immToReg 1 .edx },
   { mnemonic := .jcc .ne, operands := .imm 0 }]

/-- The three hazards of the register, the flags that the jump reads, and the writer that it must not see. -/
theorem finish_edges_caused_on_hazards :
    ∃ t g, ofBlock {} hazards = .ok t ∧ t.finish = .ok g ∧
      g.edges.map (fun e => (e.source, e.target, e.hazard)) =
        [(0, 1, .raw), (1, 2, .war), (0, 2, .waw), (1, 3, .waw), (3, 4, .raw)] ∧
      ∀ e ∈ g.edges, Cause (accessLog hazards) e.source e.target e.hazard := by
  obtain ⟨t, g, ht, hg, hcaused⟩ := finish_edges_caused {} hazards
  have hresult : ((ofBlock {} hazards).bind finish).map
      (fun g => g.edges.map fun e => (e.source, e.target, e.hazard)) =
        .ok [(0, 1, .raw), (1, 2, .war), (0, 2, .waw), (1, 3, .waw), (3, 4, .raw)] := by
    decide +kernel
  rw [ht, Except.bind, hg] at hresult
  exact ⟨t, g, ht, hg, Except.ok.inj hresult, fun e he => (hcaused e he).2.2⟩

end Tracker

end DualIssue
