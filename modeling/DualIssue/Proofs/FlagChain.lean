import DualIssue.Proofs.AccessLog

/-!
# The pending writers of the flags under any calls

A tracker may be asked to settle its pending writers at any time, not only when a block ends. This module
follows the chain of pending writers through any sequence of calls.

* **`Call`**: record an instruction, settle the live-out flags, start over.
* **`call_orderly`**: no call fails, and what it makes of the chain (`chainAfter`).
* **`ReadBeforeFix`**: settling keeps the first pending writer, so the last one survives only as the first,
  or once an instruction has read the flags.
* **`lastFlagWriter_pending_iff`**: exactly then is the last writer of the flags at the end of the chain, where
  the next reader finds it.
-/

namespace DualIssue

open DualIssue.Graph

namespace Tracker

/-- What a tracker can be asked to do. -/
inductive Call where
  | record (inst : Instruction)
  | fixLiveOut
  | reset

def call (t : Tracker) : Call → Except Fault Tracker
  | .record inst => t.recordInstruction inst
  | .fixLiveOut => t.fixLiveOut
  | .reset => .ok t.reset

/-- A new tracker after some calls. -/
def afterCalls (latencies : LatencyTable) (calls : List Call) : Except Fault Tracker :=
  calls.foldlM call (start latencies)

def blockAfter (block : List Instruction) : Call → List Instruction
  | .record inst => block ++ [inst]
  | .fixLiveOut => block
  | .reset => []

/-- The instructions recorded since the last reset. -/
def currentBlock (calls : List Call) : List Instruction := calls.foldl blockAfter []

/-- The pending writers that an instruction leaves: the last, if it reads the flags. -/
def leftBy (inst : Instruction) (chain : List Slot) : List Slot :=
  if inst.readsFlags then chain.getLast?.toList else chain

/-- What a call makes of the pending writers, if the next free slot is `slot`. -/
def chainAfter (chain : List Slot) (slot : Slot) : Call → List Slot
  | .record inst => leftBy inst chain ++ if inst.writesFlags then [slot] else []
  | .fixLiveOut => chain.take 1
  | .reset => []

/-- Reading drops writers from the chain and changes nothing else about it. -/
theorem leftBy_sublist (inst : Instruction) (chain : List Slot) : (leftBy inst chain).Sublist chain := by
  unfold leftBy
  split
  · exact toList_getLast?_sublist _
  · exact List.Sublist.refl _

/-- A reader keeps one writer if there is any. -/
theorem leftBy_eq_nil_iff {inst : Instruction} {chain : List Slot} : leftBy inst chain = [] ↔ chain = [] := by
  unfold leftBy
  split
  · rw [Option.toList_eq_nil_iff, List.getLast?_eq_none_iff]
  · rfl

/-! ## No call fails

Between two calls the tracker is tidy and the chain ascends, and it is empty only as long as no instruction has
written the flags. Each call keeps this and has a known effect on the chain, so that the rest of the module is
about lists of slots. -/

/-- What holds between two calls. -/
structure Orderly (block : List Instruction) (t : Tracker) : Prop where
  tidy : t.Tidy
  size_eq : t.graph.size = block.length
  ascending : t.flagWriters.Pairwise (· < ·)
  nil_iff : t.flagWriters = [] ↔ ∀ inst ∈ block, inst.writesFlags = false

theorem orderly_start (latencies : LatencyTable) : Orderly [] (start latencies) where
  tidy := tidy_start latencies
  size_eq := rfl
  ascending := List.Pairwise.nil
  nil_iff := by simp [start]

/-- Of the accesses of a slot only those of the flags matter to the chain. Induction on the accesses. -/
theorem flagWriters_recordedAll (t : Tracker) (accesses : List Access) (slot : Slot) :
    (t.recordedAll accesses slot).flagWriters =
      (flagRoles accesses).foldl (fun chain role =>
        (if role.reads then chain.getLast?.toList else chain) ++ (if role.writes then [slot] else []))
        t.flagWriters := by
  induction accesses generalizing t with
  | nil => rfl
  | cons access rest ih =>
    show ((t.recorded access slot).recordedAll rest slot).flagWriters = _
    rw [ih, flagWriters_recorded]
    by_cases hres : access.resource = .flags
    · have hroles : flagRoles (access :: rest) = access.role :: flagRoles rest := by
        rw [flagRoles, List.filter_cons_of_pos (by simpa using hres)]
        rfl
      rw [if_pos hres, hroles, List.foldl_cons]
    · rw [if_neg hres, flagRoles_cons_of_ne hres]

/-- What recording an instruction makes of the chain: a read leaves the last writer, a write appends the slot.
The four cases are whether it reads and whether it writes. -/
theorem flagWriters_recordedInstruction (t : Tracker) (inst : Instruction) :
    (t.recordedInstruction inst).flagWriters = chainAfter t.flagWriters t.graph.size (.record inst) := by
  rw [recordedInstruction, flagWriters_recordedAll, flagRoles_recordedAccesses, flagRoles_accesses,
    chainAfter, leftBy]
  cases inst.readsFlags <;> cases inst.writesFlags <;> simp [Role.reads, Role.writes, addNode]

section Steps

variable {block : List Instruction} {t : Tracker}

/-- Recording keeps the chain in order: it loses writers, and what it gains is the slot after all others. -/
theorem Orderly.record (h : Orderly block t) (inst : Instruction) :
    Orderly (block ++ [inst]) (t.recordedInstruction inst) := by
  obtain ⟨_, htidy, hsize⟩ := recordInstruction_eq_ok h.tidy inst
  have hkept := leftBy_sublist inst t.flagWriters
  refine ⟨htidy, ?_, ?_, ?_⟩
  · rw [hsize, h.size_eq, List.length_append]
    rfl
  · rw [flagWriters_recordedInstruction]
    refine List.pairwise_append.mpr ⟨h.ascending.sublist hkept, ?_, ?_⟩
    · split
      · exact List.pairwise_singleton _ _
      · exact List.Pairwise.nil
    · intro w hw slot hslot
      split at hslot
      · rw [List.mem_singleton.mp hslot]
        exact h.tidy.writers_lt (hkept.mem hw)
      · cases hslot
  · -- a reader keeps a writer if there is one, so only writers decide whether the chain is empty
    rw [flagWriters_recordedInstruction, chainAfter, List.append_eq_nil_iff, leftBy_eq_nil_iff, h.nil_iff,
      List.forall_mem_append, List.forall_mem_singleton]
    refine and_congr_right fun _ => ?_
    cases inst.writesFlags <;> simp

/-- Settling adds edges that lead forward and cuts the chain down to its first writer. No other table of the
tracker changes. -/
theorem Orderly.fixLiveOut (h : Orderly block t) :
    ∃ t', t.fixLiveOut = .ok t' ∧ Orderly block t' ∧ t'.flagWriters = t.flagWriters.take 1 := by
  have hlt := h.tidy.liveOutEdges_forward h.ascending
  refine ⟨{ t with
    graph := t.graph.insertEdges t.liveOutEdges, flagWriters := t.flagWriters.take 1 }, ?_, ?_, rfl⟩
  · rw [Tracker.fixLiveOut, addEdges_eq_ok fun e he => (hlt e he).2]
    rfl
  · have hsize : (t.graph.insertEdges t.liveOutEdges).size = t.graph.size := size_insertEdges _ _
    refine ⟨?_, hsize.trans h.size_eq, h.ascending.sublist (List.take_sublist _ _), ?_⟩
    · constructor
      case producer_lt => exact fun hp => hsize ▸ h.tidy.producer_lt hp
      case users_lt => exact fun hu => hsize ▸ h.tidy.users_lt hu
      case writers_lt => exact fun hw => hsize ▸ h.tidy.writers_lt (List.mem_of_mem_take hw)
      case readers_lt => exact fun hr => hsize ▸ h.tidy.readers_lt hr
      case writers_sorted => exact h.tidy.writers_sorted.sublist (List.take_sublist _ _)
      case forward => exact h.tidy.forward_liveOutEdges h.ascending
    · rw [← h.nil_iff]
      exact (List.take_eq_nil_iff).trans (by simp)

/-- **The step.** No call fails, and what it makes of the chain is `chainAfter`. -/
theorem call_orderly (h : Orderly block t) (c : Call) :
    ∃ t', t.call c = .ok t' ∧ Orderly (blockAfter block c) t' ∧
      t'.flagWriters = chainAfter t.flagWriters t.graph.size c := by
  cases c with
  | record inst =>
    exact ⟨_, (recordInstruction_eq_ok h.tidy inst).1, h.record inst,
      flagWriters_recordedInstruction t inst⟩
  | fixLiveOut => exact h.fixLiveOut
  | reset => exact ⟨t.reset, rfl, orderly_start t.latencies, rfl⟩

/-- **The run.** No sequence of calls fails. Induction from the first call. -/
theorem foldlM_call_orderly (h : Orderly block t) (calls : List Call) :
    ∃ t', calls.foldlM call t = .ok t' ∧ Orderly (calls.foldl blockAfter block) t' := by
  induction calls generalizing block t with
  | nil => exact ⟨t, rfl, h⟩
  | cons c calls ih =>
    obtain ⟨next, hnext, horderly, _⟩ := call_orderly h c
    obtain ⟨t', ht', hlast⟩ := ih horderly
    exact ⟨t', by rw [List.foldlM_cons, hnext]; exact ht', hlast⟩

end Steps

/-! ## The last writer

From the last write on, calls can only shorten the chain. A reader shortens it to the last writer, settling to
the first. These agree once the chain has one writer; while it has more, whichever comes first decides, and that
is what `ReadBeforeFix` expresses about the calls. -/

/-- A call that leaves the last writer of the flags the last. -/
def Call.IsQuiet : Call → Prop
  | .record inst => inst.writesFlags = false
  | .fixLiveOut => True
  | .reset => False

/-- Every settling of the live-out flags comes after an instruction that reads the flags. -/
def ReadBeforeFix (calls : List Call) : Prop :=
  ∀ front back, calls = front ++ .fixLiveOut :: back → ∃ inst, .record inst ∈ front ∧ inst.readsFlags = true

theorem readBeforeFix_nil : ReadBeforeFix [] := by
  intro front back h
  cases front <;> cases h

/-- An instruction in front of the calls is a reader, or the others have to provide one. -/
theorem readBeforeFix_record {inst : Instruction} {calls : List Call} :
    ReadBeforeFix (.record inst :: calls) ↔ inst.readsFlags = true ∨ ReadBeforeFix calls := by
  constructor
  · intro h
    refine or_iff_not_imp_left.mpr fun hnot front back heq => ?_
    obtain ⟨reader, hmem, hreads⟩ := h (.record inst :: front) back (by rw [heq]; rfl)
    rcases List.mem_cons.mp hmem with heq | hmem
    · cases heq
      exact absurd hreads hnot
    · exact ⟨reader, hmem, hreads⟩
  · intro h front back heq
    cases front with
    | nil => cases heq
    | cons c front =>
      cases heq
      rcases h with hreads | h
      · exact ⟨inst, List.mem_cons_self, hreads⟩
      · obtain ⟨reader, hmem, hreads⟩ := h front back rfl
        exact ⟨reader, List.mem_cons_of_mem _ hmem, hreads⟩

/-- Settling first is before any reader. -/
theorem not_readBeforeFix_fixLiveOut (calls : List Call) : ¬ ReadBeforeFix (.fixLiveOut :: calls) := by
  intro h
  obtain ⟨_, hmem, _⟩ := h [] calls rfl
  cases hmem

section Quiet

variable {block : List Instruction} {t t' : Tracker} {calls : List Call}
  (hquiet : ∀ c ∈ calls, c.IsQuiet)

include hquiet

/-- A writer that is alone stays alone. Induction on the calls; each of them leaves a chain of one as it is. -/
theorem flagWriters_of_alone (h : Orderly block t) {w : Slot} (halone : t.flagWriters = [w])
    (hrun : calls.foldlM call t = .ok t') : t'.flagWriters = [w] := by
  induction calls generalizing block t with
  | nil =>
    cases hrun
    exact halone
  | cons c calls ih =>
    obtain ⟨next, hnext, horderly, hchain⟩ := call_orderly h c
    rw [List.foldlM_cons, hnext] at hrun
    refine ih (fun c hc => hquiet c (List.mem_cons_of_mem _ hc)) horderly ?_ hrun
    have hc := hquiet c List.mem_cons_self
    rw [hchain, halone]
    cases c with
    | record inst =>
      have hwrites : inst.writesFlags = false := hc
      simp [chainAfter, leftBy, hwrites]
    | fixLiveOut => rfl
    | reset => exact hc.elim

/-- With other writers before it in the chain, the last one has to be read before the chain is settled.
Induction on the calls, up to the first that shortens the chain; from then on there is one writer
(`flagWriters_of_alone`). -/
theorem last_pending_iff_readBeforeFix (h : Orderly block t) {earlier : List Slot} {w : Slot}
    (hearlier : earlier ≠ []) (hchain : t.flagWriters = earlier ++ [w])
    (hrun : calls.foldlM call t = .ok t') :
    t'.flagWriters.getLast? = some w ↔ ReadBeforeFix calls := by
  induction calls generalizing block t with
  | nil =>
    cases hrun
    rw [hchain, List.getLast?_concat]
    exact iff_of_true rfl readBeforeFix_nil
  | cons c calls ih =>
    have hrest : ∀ c ∈ calls, c.IsQuiet := fun c hc => hquiet c (List.mem_cons_of_mem _ hc)
    obtain ⟨next, hnext, horderly, hafter⟩ := call_orderly h c
    rw [List.foldlM_cons, hnext] at hrun
    rw [hchain] at hafter
    cases c with
    | record inst =>
      have hwrites : inst.writesFlags = false := hquiet _ List.mem_cons_self
      rw [readBeforeFix_record]
      cases hreads : inst.readsFlags with
      | true =>
        -- the reader leaves the last writer alone in the chain
        have halone : next.flagWriters = [w] := by
          rw [hafter]
          simp [chainAfter, leftBy, hwrites, hreads]
        rw [flagWriters_of_alone hrest horderly halone hrun]
        exact iff_of_true rfl (Or.inl rfl)
      | false =>
        have hsame : next.flagWriters = earlier ++ [w] := by
          rw [hafter]
          simp [chainAfter, leftBy, hwrites, hreads]
        rw [ih hrest horderly hsame hrun]
        simp
    | fixLiveOut =>
      -- the first writer is kept, and it is not the last
      obtain ⟨first, others, rfl⟩ := List.exists_cons_of_ne_nil hearlier
      have halone : next.flagWriters = [first] := hafter
      rw [flagWriters_of_alone hrest horderly halone hrun]
      refine iff_of_false ?_ (not_readBeforeFix_fixLiveOut calls)
      have hlt : first < w := by
        have hasc := h.ascending
        rw [hchain] at hasc
        exact (List.pairwise_append.mp hasc).2.2 first List.mem_cons_self w List.mem_cons_self
      intro hlast
      cases hlast
      exact Nat.lt_irrefl _ hlt
    | reset => exact (hquiet _ List.mem_cons_self).elim

end Quiet

/-! ## The next reader

What the last of the pending writers is good for: the next instruction that reads the flags gets an edge from
it. -/

/-- An instruction reads the flags before it writes them, so it sees the last of the pending writers. Its
accesses are cut at the first one to the flags; recording the ones in front leaves the chain as it is, and
recording those behind keeps the edge. -/
theorem exists_raw_of_readsFlags {t : Tracker} (ht : t.Tidy) {inst : Instruction}
    (hreads : inst.readsFlags = true) {w : Slot} (hlast : t.flagWriters.getLast? = some w) :
    ∃ e ∈ (t.recordedInstruction inst).graph.edges,
      e.source = w ∧ e.target = t.graph.size ∧ e.hazard = .raw := by
  have hroles : flagRoles (recordedAccesses inst) =
      .use :: (if inst.writesFlags then [.define] else []) := by
    rw [flagRoles_recordedAccesses, flagRoles_accesses, hreads]
    rfl
  -- what is before the first access of the flags leaves the chain as it is
  obtain ⟨access, rest, hfilter, hrole, _⟩ := List.map_eq_cons_iff.mp hroles
  obtain ⟨front, back, heq, hfront, hres, _⟩ := List.filter_eq_cons_iff.mp hfilter
  have hres : access.resource = .flags := by simpa using hres
  have hchain : ((t.addNode inst.isMemoryLoad).recordedAll front t.graph.size).flagWriters.getLast? =
      some w := by
    rw [flagWriters_recordedAll, flagRoles_eq_nil fun a ha => by simpa using hfront a ha]
    exact hlast
  have hasks : Asks _ access t.graph.size _ w t.graph.size :=
    .readFlags hres (by rw [hrole]; rfl) hchain
  have hne : w ≠ t.graph.size := Nat.ne_of_lt (ht.writers_lt (List.mem_of_getLast? hlast))
  have hmem := hasks.mem_edges_recordedAll (ht.addNode inst.isMemoryLoad) (size_graph_addNode _ _).symm
    (by rw [hres]; rfl) hne back
  rw [← heq] at hmem
  exact ⟨_, hmem, rfl, rfl, rfl⟩

end Tracker

open DualIssue.Tracker

/-- **Which writer of the flags is current.** Take any calls of which one records a writer of the flags,
followed neither by another writer nor by a reset. That writer is the last of the pending ones exactly if it is
the first since the reset or its flags are read before the live-out flags are settled; and whichever is the
last, an instruction recorded next that reads the flags depends on it. -/
theorem lastFlagWriter_pending_iff (latencies : LatencyTable) (before after : List Call)
    (writer : Instruction) (hwrites : writer.writesFlags = true) (hafter : ∀ c ∈ after, c.IsQuiet) :
    ∃ t, afterCalls latencies (before ++ .record writer :: after) = .ok t ∧
      (t.flagWriters.getLast? = some (currentBlock before).length ↔
        (∀ inst ∈ currentBlock before, inst.writesFlags = false) ∨ ReadBeforeFix after) ∧
      ∀ w, t.flagWriters.getLast? = some w → ∀ inst : Instruction, inst.readsFlags = true →
        ∃ t', t.recordInstruction inst = .ok t' ∧
          ∃ e ∈ t'.graph.edges, e.source = w ∧
            e.target = (currentBlock (before ++ .record writer :: after)).length ∧ e.hazard = .raw := by
  obtain ⟨t₀, ht₀, h₀⟩ := foldlM_call_orderly (orderly_start latencies) before
  obtain ⟨t₁, ht₁, h₁, hchain⟩ := call_orderly h₀ (.record writer)
  obtain ⟨t, ht, h⟩ := foldlM_call_orderly h₁ after
  refine ⟨t, ?_, ?_, ?_⟩
  · rw [afterCalls, List.foldlM_append, ht₀]
    show ((t₀.call (.record writer)) >>= fun next => after.foldlM call next) = _
    rw [ht₁]
    exact ht
  · have hnil : leftBy writer t₀.flagWriters = [] ↔
        ∀ inst ∈ currentBlock before, inst.writesFlags = false := leftBy_eq_nil_iff.trans h₀.nil_iff
    rw [chainAfter, hwrites, if_pos rfl, h₀.size_eq] at hchain
    -- the writer is alone in the chain exactly if nothing before it has written the flags
    by_cases hfirst : ∀ inst ∈ currentBlock before, inst.writesFlags = false
    · rw [hnil.mpr hfirst, List.nil_append] at hchain
      rw [flagWriters_of_alone hafter h₁ hchain ht]
      exact iff_of_true rfl (Or.inl hfirst)
    · rw [or_iff_right hfirst]
      exact last_pending_iff_readBeforeFix hafter h₁ (mt hnil.mp hfirst) hchain ht
  · intro w hlast inst hreads
    have hsize : (currentBlock (before ++ .record writer :: after)).length = t.graph.size := by
      rw [currentBlock, List.foldl_append]
      exact h.size_eq.symm
    rw [hsize]
    exact ⟨_, (recordInstruction_eq_ok h.tidy inst).1, exists_raw_of_readsFlags h.tidy hreads hlast⟩

/-- The comparison stays the last pending writer although an addition was pending before it, since a move has
read its flags before they are settled; a conditional jump depends on it. -/
theorem lastFlagWriter_pending_after_read :
    ∃ t, afterCalls {} [.record { mnemonic := .add, operands := .immToReg 1 .eax },
        .record { mnemonic := .cmp, operands := .immToReg 0 .ecx },
        .record { mnemonic := .cmov .e, operands := .regToReg .edx .ebx }, .fixLiveOut] = .ok t ∧
      t.flagWriters.getLast? = some 1 ∧
      ∃ t', t.recordInstruction { mnemonic := .jcc .e, operands := .imm 64 } = .ok t' ∧
        ∃ e ∈ t'.graph.edges, e.source = 1 ∧ e.target = 3 ∧ e.hazard = .raw := by
  have hquiet : ∀ c ∈ [.record { mnemonic := .cmov .e, operands := .regToReg .edx .ebx }, .fixLiveOut],
      Call.IsQuiet c := List.forall_mem_cons.mpr ⟨rfl, List.forall_mem_singleton.mpr trivial⟩
  obtain ⟨t, ht, hlast, hnext⟩ := lastFlagWriter_pending_iff {}
    [.record { mnemonic := .add, operands := .immToReg 1 .eax }] _
    { mnemonic := .cmp, operands := .immToReg 0 .ecx } rfl hquiet
  have hone := hlast.mpr (Or.inr (readBeforeFix_record.mpr (Or.inl rfl)))
  exact ⟨t, ht, hone, hnext 1 hone _ rfl⟩

/-- **Settling too early loses the last writer.** Of an addition and a comparison, both pending, the addition is
kept, and a conditional jump recorded next depends on the addition and not on the comparison. -/
theorem earlyFix_loses_comparison :
    ∃ t, afterCalls {} [.record { mnemonic := .add, operands := .immToReg 1 .eax },
        .record { mnemonic := .cmp, operands := .immToReg 0 .ecx }, .fixLiveOut] = .ok t ∧
      t.flagWriters = [0] ∧
      ∃ t', t.recordInstruction { mnemonic := .jcc .e, operands := .imm 64 } = .ok t' ∧
        t'.graph.hasEdge 0 2 .raw = true ∧ ∀ e ∈ t'.graph.edges, e.target = 2 → e.source = 0 := by
  refine ⟨_, rfl, rfl, _, rfl, rfl, ?_⟩
  decide

end DualIssue
