import DualIssue.Proofs.ReadyTimes
import Mathlib.Data.List.Pairwise

/-!
# The order of issue is a legal stream for two ports

Nothing checks the ports after the fact. That the two slots of a cycle can share it is decided when they
are picked, and that no later pick comes into the same cycle follows from the clock, which every cycle
moves past the cycles of all that has issued.

* **`choose_legal`**: what one cycle picks is at most two slots with free ports.
* **`Legal`** is what this says of a whole board, by cycle; **`Legal.step`** is the step lemma. A cycle
  changes nothing about the earlier ones, so two slots that share a cycle are both old or both new.
* **`DualIssueStream`** says it of the returned records and order, and `listSchedule_dualIssueStream` is the
  run lemma.
-/

namespace DualIssue

open DualIssue.Graph

theorem IssuePort.conflictsWith_comm (p q : IssuePort) : p.conflictsWith q = q.conflictsWith p := by
  cases p <;> cases q <;> rfl

/-- An instruction that needs both ports conflicts with everything. -/
theorem IssuePort.both_conflictsWith (p : IssuePort) : IssuePort.both.conflictsWith p = true := by
  cases p <;> rfl

namespace Board

/-! ## What one cycle picks

A cycle picks nothing, one slot, or two of which the second pairs with the first. Slots that pair have free ports,
which is a symmetric relation. -/

/-- The ports let the instructions of two slots issue in one cycle. -/
def PortsFree (b : Board) (s s' : Slot) : Prop :=
  ∃ r r', b.records[s]? = some r ∧ b.records[s']? = some r' ∧ r.port.conflictsWith r'.port = false

theorem PortsFree.symm {b : Board} {s s' : Slot} (h : b.PortsFree s s') : b.PortsFree s' s := by
  obtain ⟨r, r', hr, hr', hfree⟩ := h
  exact ⟨r', r, hr', hr, by rw [IssuePort.conflictsWith_comm]; exact hfree⟩

theorem portsFree_of_pairsWith {b : Board} {primary s : Slot} (h : b.pairsWith primary s = true) :
    b.PortsFree primary s := by
  unfold pairsWith at h
  split at h
  · rename_i p r hp hr
    have hfree : p.port.conflictsWith r.port = false := by
      rw [Bool.and_eq_true, Bool.not_eq_true'] at h
      exact h.2
    exact ⟨p, r, hp, hr, hfree⟩
  · cases h

theorem choose_legal (b : Board) (candidates : List Slot) :
    (b.choose candidates).length ≤ 2 ∧ (b.choose candidates).Pairwise b.PortsFree := by
  unfold choose
  split
  · exact ⟨by simp, List.Pairwise.nil⟩
  · rename_i primary _
    cases hsecond : b.best (candidates.filter (b.pairsWith primary)) with
    | none => simp
    | some s =>
      have hpair := (List.mem_filter.mp (best_mem hsecond)).2
      simpa using portsFree_of_pairsWith hpair

/-! ## What all cycles have picked

`Legal` speaks about slots of the order that share a cycle. What issues now shares its cycle with nothing that
has issued before, because the clock is past all that has. So legality of the new board is legality of the old
one and of the pick. -/

/-- Whatever has issued in one cycle could do so. -/
structure Legal (b : Board) : Prop where
  at_most_two : ∀ cycle, b.order.countP (b.cycleOf · = cycle) ≤ 2
  ports_free : ∀ s ∈ b.order, ∀ s' ∈ b.order, s ≠ s' → b.cycleOf s = b.cycleOf s' → b.PortsFree s s'
  delimiter_alone : ∀ s ∈ b.order, ∀ s' ∈ b.order, s ≠ s' → b.cycleOf s = b.cycleOf s' →
    b.isDelimiter s = false

section Step

variable {g : Graph} {b b' : Board} {time : Nat} {slots : List Slot}

/-- Ports are given, so free ports stay free. -/
theorem PortsFree.of_sameBlock {s s' : Slot} (hsame : SameBlock b.records b'.records)
    (h : b.PortsFree s s') : b'.PortsFree s s' := by
  obtain ⟨r, r', hr, hr', hfree⟩ := h
  have hport : ∀ {i : Nat} {r : Record}, b.records[i]? = some r →
      ∃ q, b'.records[i]? = some q ∧ q.port = r.port := by
    intro i r hr
    have hi := hsame.map_eq (·.port) (fun _ => rfl) i
    rw [hr, Option.map_some] at hi
    exact Option.map_eq_some_iff.mp hi
  obtain ⟨q, hq, hqport⟩ := hport hr
  obtain ⟨q', hq', hqport'⟩ := hport hr'
  exact ⟨q, q', hq, hq', by rw [hqport, hqport']; exact hfree⟩

variable (h : Sound g b) (hc : b.Chosen time slots) (hi : Issued g b time slots b')
include h hc hi

/-- Two slots that share a cycle have both issued before, or both issue now. In the two mixed cases one of the
cycles is past and the other is the current one. -/
theorem Sound.same_cycle_cases {s s' : Slot} (hs : s ∈ b'.order) (hs' : s' ∈ b'.order)
    (hcycle : b'.cycleOf s = b'.cycleOf s') :
    (s ∈ b.order ∧ s' ∈ b.order ∧ b.cycleOf s = b.cycleOf s') ∨ (s ∈ slots ∧ s' ∈ slots) := by
  have hold : ∀ {u}, u ∈ b.order → b'.cycleOf u = b.cycleOf u ∧ b.cycleOf u < time := by
    intro u hu
    exact ⟨h.cycleOf_kept hc hi hu, Nat.lt_of_lt_of_le (h.past u hu) hc.time_le⟩
  rcases hi.mem_order_iff.mp hs with hs | hs <;> rcases hi.mem_order_iff.mp hs' with hs' | hs'
  · refine Or.inl ⟨hs, hs', ?_⟩
    rw [← (hold hs).1, ← (hold hs').1]
    exact hcycle
  · have hnew := h.cycleOf_chosen hc hi hs'
    have := hold hs
    omega
  · have hnew := h.cycleOf_chosen hc hi hs
    have := hold hs'
    omega
  · exact Or.inr ⟨hs, hs'⟩

/-- No cycle gets more than two slots: the current one has only those of the pick, and all others have what they
had. -/
theorem Legal.countP_step (hl : b.Legal) (htwo : slots.length ≤ 2) (cycle : Nat) :
    b'.order.countP (b'.cycleOf · = cycle) ≤ 2 := by
  rw [hi.order_eq, List.countP_append]
  by_cases hnow : cycle = time
  · -- nothing has issued in this cycle before
    have hnone : b.order.countP (b'.cycleOf · = cycle) = 0 := by
      rw [List.countP_eq_zero]
      intro s hs
      have hpast := Nat.lt_of_lt_of_le (h.past s hs) hc.time_le
      rw [h.cycleOf_kept hc hi hs, decide_eq_true_iff]
      omega
    have hle : slots.countP (b'.cycleOf · = cycle) ≤ slots.length := List.countP_le_length
    omega
  · have hnone : slots.countP (b'.cycleOf · = cycle) = 0 := by
      rw [List.countP_eq_zero]
      intro s hs
      rw [h.cycleOf_chosen hc hi hs, decide_eq_true_iff]
      exact fun heq => hnow heq.symm
    have hkept : b.order.countP (b'.cycleOf · = cycle) = b.order.countP (b.cycleOf · = cycle) := by
      refine List.countP_congr fun s hs => ?_
      rw [h.cycleOf_kept hc hi hs]
    have hold := hl.at_most_two cycle
    omega

/-- **A legal pick keeps the board legal.** Each field is asked for two slots that share a cycle, and
`same_cycle_cases` says whether it is about the old board or about the pick. -/
theorem Legal.step (hl : b.Legal) (htwo : slots.length ≤ 2) (hfree : slots.Pairwise b.PortsFree) :
    b'.Legal where
  at_most_two := hl.countP_step h hc hi htwo
  ports_free := by
    intro s hs s' hs' hne hcycle
    refine PortsFree.of_sameBlock hi.given_eq ?_
    rcases h.same_cycle_cases hc hi hs hs' hcycle with ⟨hs, hs', hcycle⟩ | ⟨hs, hs'⟩
    · exact hl.ports_free s hs s' hs' hne hcycle
    · -- the pick has the two in one order, they may be asked for in the other
      have : Std.Symm b.PortsFree := ⟨fun _ _ => PortsFree.symm⟩
      exact hfree.forall hs hs' hne
  delimiter_alone := by
    intro s hs s' hs' hne hcycle
    rw [isDelimiter_of_sameBlock hi.given_eq]
    rcases h.same_cycle_cases hc hi hs hs' hcycle with ⟨hs, hs', hcycle⟩ | ⟨hs, hs'⟩
    · exact hl.delimiter_alone s hs s' hs' hne hcycle
    · rcases hc.inner_or_delimiter with hinner | ⟨_, d, rfl, _⟩
      · exact hinner s hs
      · rw [List.mem_singleton.mp hs, List.mem_singleton.mp hs'] at hne
        exact absurd rfl hne

end Step

theorem legal_of_start {g : Graph} {records : Array Record} {b : Board}
    (hb : Board.start g records = .ok b) : b.Legal := by
  have hnil := (nothing_issued_of_start hb).1
  constructor <;> simp [hnil]

end Board

open DualIssue.Board

/-! ## The returned records and order

The board counts slots in the order, the result has records by slot. The two are matched by the fact that the
order is a permutation of the slots, and that every record has the issue time of its slot. -/

/-- What two ports can issue: the records, each in its slot, have issued in this order. -/
structure DualIssueStream (records : Array Record) (order : List Slot) : Prop where
  /-- Every slot of the order has issued, in no earlier cycle than the slots before it. -/
  sorted : ∃ cycles : List Nat,
    order.map (fun s => records[s]?.bind (·.issueTime)) = cycles.map some ∧
      cycles.Pairwise (· ≤ ·)
  at_most_two : ∀ cycle, records.toList.countP (·.issueTime = some cycle) ≤ 2
  ports_free : ∀ (i j : Nat) (r r' : Record), records[i]? = some r → records[j]? = some r' → i ≠ j →
    r.issueTime = r'.issueTime → r.port.conflictsWith r'.port = false
  delimiter_alone : ∀ (i j : Nat) (r r' : Record), records[i]? = some r → records[j]? = some r' →
    i ≠ j → r.inst.isDelimiter = true → r.issueTime ≠ r'.issueTime
  /-- A delimiter that ends the block issues in a later cycle than all other records. -/
  delimiter_last : ∀ (last r : Record) (i : Nat), records.back? = some last →
    last.inst.isDelimiter = true → records[i]? = some r → i + 1 ≠ records.size →
      ∃ cycle final, r.issueTime = some cycle ∧ last.issueTime = some final ∧ cycle < final

section Finished

variable {g : Graph} {records final : Array Record} {order : List Slot} {b : Board}

theorem Board.Finished.map_issueTime (h : Finished g records final order b) :
    final.toList.map (·.issueTime) = (List.range g.size).map fun i => some (b.cycleOf i) := by
  have hsize : final.size = g.size := by rw [← h.records_eq, h.sound.size_eq]
  refine List.ext_getElem (by simp [hsize]) ?_
  intro i hi _
  have hlt : i < final.size := by simpa using hi
  simpa using (h.issueTime_eq (Array.getElem?_eq_getElem hlt)).2

/-- As many records as slots of the order have issued in a cycle. -/
theorem Board.Finished.countP_eq (h : Finished g records final order b) (cycle : Nat) :
    final.toList.countP (·.issueTime = some cycle) = b.order.countP (b.cycleOf · = cycle) := by
  have hrecords : final.toList.countP (·.issueTime = some cycle) =
      (final.toList.map (·.issueTime)).countP (· = some cycle) := by
    rw [List.countP_map]
    rfl
  -- records are listed by slot and slots by time of issue, so the counts agree up to a permutation
  rw [hrecords, h.map_issueTime, List.countP_map, h.order_eq, h.order_perm.countP_eq]
  refine List.countP_congr fun i _ => ?_
  simp

theorem Board.Finished.sorted (h : Finished g records final order b) :
    order.map (fun s => final[s]?.bind (·.issueTime)) = (order.map b.cycleOf).map some ∧
      (order.map b.cycleOf).Pairwise (· ≤ ·) := by
  rw [← h.order_eq, ← h.records_eq, List.map_map, List.pairwise_map]
  exact ⟨List.map_congr_left h.sound.issueTime_eq, h.sound.order_sorted⟩

/-- A delimiter at the end of the block ends the order, which is sorted by cycle. It ends the order because it
has not been overtaken, or the schedule would have been refused. -/
theorem Board.Finished.cycleOf_le_of_delimiter (h : Finished g records final order b) {last : Record}
    (hlast : final.back? = some last) (hdelim : last.inst.isDelimiter = true) {s : Slot}
    (hs : s ∈ b.order) : b.cycleOf s ≤ b.cycleOf (final.size - 1) := by
  have hslot : last.slot = final.size - 1 := by
    refine h.sound.positioned _ last ?_
    rw [h.records_eq, ← Array.back?_eq_getElem?]
    exact hlast
  have hend : b.order.getLast? = some (final.size - 1) := by
    refine Classical.byContradiction fun hne => h.not_overtaken ⟨last, hlast, hdelim, ?_⟩
    rw [hslot, ← h.order_eq]
    exact hne
  obtain ⟨others, hothers⟩ := List.getLast?_eq_some_iff.mp hend
  have hsorted := h.sound.order_sorted
  rw [hothers] at hsorted hs
  rcases List.mem_append.mp hs with hs | hs
  · exact (List.pairwise_append.mp hsorted).2.2 s hs _ (List.mem_singleton.mpr rfl)
  · exact Nat.le_of_eq (by rw [List.mem_singleton.mp hs])

/-- **A finished board that is legal gives a stream for two ports.** Two records that share a cycle stand for
two slots that do (`hshare`), and then the fields of `Legal` apply. That a delimiter is strictly last takes
both: nothing is later (`cycleOf_le_of_delimiter`), and nothing shares its cycle. -/
theorem Board.Finished.dualIssueStream (h : Finished g records final order b) (hl : b.Legal) :
    DualIssueStream final order := by
  -- what the board says about two slots of one cycle, said of their records
  have hshare : ∀ {i j : Nat} {r r' : Record}, final[i]? = some r → final[j]? = some r' →
      r.issueTime = r'.issueTime → i ∈ b.order ∧ j ∈ b.order ∧ b.cycleOf i = b.cycleOf j := by
    intro i j r r' hr hr' hsame
    obtain ⟨hi, hri⟩ := h.issueTime_eq hr
    obtain ⟨hj, hrj⟩ := h.issueTime_eq hr'
    rw [hri, hrj] at hsame
    exact ⟨hi, hj, Option.some.inj hsame⟩
  have halone : ∀ (i j : Nat) (r r' : Record), final[i]? = some r → final[j]? = some r' → i ≠ j →
      r.inst.isDelimiter = true → r.issueTime ≠ r'.issueTime := by
    intro i j r r' hr hr' hne hdelim hsame
    obtain ⟨hi, hj, hcycle⟩ := hshare hr hr' hsame
    have hinner := hl.delimiter_alone i hi j hj hne hcycle
    unfold Board.isDelimiter at hinner
    rw [h.records_eq, hr, Option.any_some, hdelim] at hinner
    cases hinner
  constructor
  case sorted => exact ⟨_, h.sorted⟩
  case at_most_two =>
    intro cycle
    rw [h.countP_eq]
    exact hl.at_most_two cycle
  case ports_free =>
    intro i j r r' hr hr' hne hsame
    obtain ⟨hi, hj, hcycle⟩ := hshare hr hr' hsame
    obtain ⟨q, q', hq, hq', hfree⟩ := hl.ports_free i hi j hj hne hcycle
    rw [h.records_eq] at hq hq'
    cases hr.symm.trans hq
    cases hr'.symm.trans hq'
    exact hfree
  case delimiter_alone => exact halone
  case delimiter_last =>
    intro last r i hlast hdelim hr hi
    have hback : final[final.size - 1]? = some last := by
      rw [← Array.back?_eq_getElem?]
      exact hlast
    obtain ⟨hmem, hcycle⟩ := h.issueTime_eq hr
    obtain ⟨_, hfinal⟩ := h.issueTime_eq hback
    refine ⟨_, _, hcycle, hfinal, ?_⟩
    -- nothing issues in a later cycle than the delimiter, and nothing shares its own
    have hle := h.cycleOf_le_of_delimiter hlast hdelim hmem
    have hne : b.cycleOf (final.size - 1) ≠ b.cycleOf i := by
      intro heq
      have := (Array.getElem?_eq_some_iff.mp hr).1
      refine halone _ i last r hback hr (by omega) hdelim ?_
      rw [hfinal, hcycle, heq]
    omega

end Finished

/-- **The order of issue is a legal stream for two ports.** The records are the given ones with times
written in. Issue times do not decrease along the order, at most two records share a cycle, their ports do
not conflict, so that one that needs both ports is alone, and delimiters are alone and at the end. -/
theorem listSchedule_dualIssueStream {g₀ g : Graph} {records final : Array Record} {order : List Slot}
    (hpos : Positioned records) (hsize : g₀.size = records.size) (hinv : g₀.invert = .ok g)
    (h : listSchedule g records = (final, .ok order)) :
    SameBlock records final ∧ order.Perm (List.range records.size) ∧ DualIssueStream final order ∧
      ∀ (i j : Nat) (r r' : Record), final[i]? = some r → final[j]? = some r' → i ≠ j →
        r.port = .both → r.issueTime ≠ r'.issueTime := by
  have hg := inverted_of_invert hinv
  have hsize' : records.size = g.size := by rw [size_of_invert hinv, hsize]
  obtain ⟨b, hb, hlegal⟩ := finished_of_listSchedule (P := Legal) hg hsize' hpos
    (fun _ => legal_of_start)
    (fun b _ _ candidates hs _ hl hoffer hi =>
      hl.step hs (chosen_of_offer hs.positioned hoffer) hi (b.choose_legal candidates).1
        (b.choose_legal candidates).2) h
  have hstream := hb.dualIssueStream hlegal
  refine ⟨hb.sameBlock, hsize' ▸ hb.order_perm, hstream, ?_⟩
  intro i j r r' hr hr' hne hboth hsame
  -- an instruction that needs both ports leaves none free
  have hfree := hstream.ports_free i j r r' hr hr' hne hsame
  rw [hboth, IssuePort.both_conflictsWith] at hfree
  cases hfree

/-- Two moves for the first port, one for the second, one for both, and a delimiter. -/
def mixedPortRecords : Array Record :=
  #[{ slot := 0, inst := { mnemonic := .mov }, port := .port0, latency := 1 },
    { slot := 1, inst := { mnemonic := .mov }, port := .port0, latency := 1 },
    { slot := 2, inst := { mnemonic := .mov }, port := .port1, latency := 1 },
    { slot := 3, inst := { mnemonic := .mov }, port := .both, latency := 1 },
    { slot := 4, inst := { mnemonic := .ret }, port := .either, latency := 1 }]

def edgelessGraph : Graph := Graph.empty.addNode.addNode.addNode.addNode.addNode

/-- The move for the second port joins the first; all others issue alone, although nothing makes them
wait but ports and the delimiter. -/
theorem listSchedule_dualIssueStream_on_mixedPorts :
    Positioned mixedPortRecords ∧ edgelessGraph.size = mixedPortRecords.size ∧
      ∃ g final, edgelessGraph.invert = .ok g ∧
        listSchedule g mixedPortRecords = (final, .ok [0, 2, 1, 3, 4]) ∧
        final.toList.map (·.issueTime) = [some 0, some 1, some 0, some 2, some 3] ∧
        DualIssueStream final [0, 2, 1, 3, 4] := by
  have hpos : Positioned mixedPortRecords := by decide
  have hsize : edgelessGraph.size = mixedPortRecords.size := rfl
  exact ⟨hpos, hsize, _, _, rfl, rfl, rfl, (listSchedule_dualIssueStream hpos hsize rfl rfl).2.2.1⟩

end DualIssue
