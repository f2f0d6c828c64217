import DualIssue.Proofs.Board

/-!
# Edges are respected with their delays

Over any inverted graph, whatever the records say: if list scheduling returns an order, then every
record's ready time is what its incoming edges ask for, it issues no earlier, and every edge leads to a
strictly later cycle. The last holds even where all latencies are zero, because a slot becomes ready only
after the cycle in which the last of its predecessors issues.
-/

namespace DualIssue

open DualIssue.Graph DualIssue.Board

/-! ## What an edge asks for

The two definitions speak about records only and repeat none of the bookkeeping of the board. -/

/-- The time from which an edge lets its target issue, once its source has: the source's latency counts
for a read after write, one cycle for the other hazards, and the latency of the edge comes on top. -/
def Delivers (records : Array Record) (d : Dependency) (time : Nat) : Prop :=
  ∃ source issued, records[d.slot]? = some source ∧ source.issueTime = some issued ∧
    time = issued + (if d.hazard = .raw then source.latency else 1) + d.latency

/-- The record in a slot has issued when its incoming edges allow it. The ready time is zero without
such edges and otherwise the latest delivery over them; the record issues at that time or later, and in
a strictly later cycle than every source. -/
structure OnTime (g : Graph) (records : Array Record) (slot : Slot) (r : Record) : Prop where
  ready_zero : g.predsOf slot = [] → r.readyTime = 0
  ready_delivered : g.predsOf slot ≠ [] → ∃ d ∈ g.predsOf slot, Delivers records d r.readyTime
  delivered_le : ∀ d ∈ g.predsOf slot, ∃ time, Delivers records d time ∧ time ≤ r.readyTime
  issued : ∃ time, r.issueTime = some time ∧ r.readyTime ≤ time ∧
    ∀ d ∈ g.predsOf slot, ∃ source earlier, records[d.slot]? = some source ∧
      source.issueTime = some earlier ∧ earlier < time

/-- The board computes the time of delivery: an issued source has a record with its cycle, and the two formulas
are the same. -/
theorem Board.Sound.delivers_arrival {g : Graph} {b : Board} (h : Sound g b) {d : Dependency}
    (hd : d.slot ∈ b.order) : Delivers b.records d (b.arrival d) := by
  have hlt : d.slot < b.records.size := by
    rw [h.size_eq]
    exact h.order_lt d.slot hd
  have htime := h.issueTime_eq d.slot hd
  unfold Board.issueTime at htime
  rw [Array.getElem?_eq_getElem hlt, Option.bind_some] at htime
  refine ⟨b.records[d.slot], b.cycleOf d.slot, Array.getElem?_eq_getElem hlt, htime, ?_⟩
  unfold arrival
  rw [Array.getElem?_eq_getElem hlt]
  simp only [htime, Option.getD_some]

/-! ## Finished boards

What list scheduling returns is read off a last board, on which all slots have issued. Properties of boards that
start true and are kept by cycles hold of it, and so other modules use `finished_of_listSchedule` with an
invariant of their own. -/

/-- A board on which every slot has issued, and whose records and order are those that are returned. -/
structure Board.Finished (g : Graph) (records final : Array Record) (order : List Slot) (b : Board) :
    Prop where
  sound : Sound g b
  sameBlock : SameBlock records final
  records_eq : b.records = final
  order_eq : b.order = order
  order_perm : order.Perm (List.range g.size)
  not_overtaken : ¬ DelimiterOvertaken final order

/-- On a finished board every record has issued, in the cycle of its slot. -/
theorem Board.Finished.issueTime_eq {g : Graph} {records final : Array Record} {order : List Slot}
    {b : Board} (h : Finished g records final order b) {i : Nat} {r : Record}
    (hr : final[i]? = some r) : i ∈ b.order ∧ r.issueTime = some (b.cycleOf i) := by
  have hlt : i < g.size := by
    rw [← h.sound.size_eq, h.records_eq]
    exact (Array.getElem?_eq_some_iff.mp hr).1
  have hmem : i ∈ b.order := by
    rw [h.order_eq]
    exact h.order_perm.mem_iff.mpr (List.mem_range.mpr hlt)
  have htime := h.sound.issueTime_eq i hmem
  unfold issueTime at htime
  rw [h.records_eq, hr] at htime
  exact ⟨hmem, htime⟩

/-- **A returned order comes from a finished board**, which has any further property that cycles keep. By
`listSchedule_spec` the run has ended in one of two ways, and an order is returned in one of them only. -/
theorem finished_of_listSchedule {g : Graph} {records final : Array Record} {order : List Slot}
    {P : Board → Prop} (hg : g.Inverted) (hsize : records.size = g.size) (hpos : Positioned records)
    (hstart : ∀ b, Board.start g records = .ok b → P b)
    (hstep : ∀ b b' time candidates, Sound g b → SameBlock records b.records → P b →
      b.Offer time candidates → Issued g b time (b.choose candidates) b' → P b')
    (h : listSchedule g records = (final, .ok order)) :
    ∃ b, Finished g records final order b ∧ P b := by
  obtain ⟨b, hsound, hsame, hP, hend⟩ := listSchedule_spec hg hsize hpos hstart hstep
  cases hend with
  | complete hlength hresult =>
    rw [h, Prod.mk.injEq] at hresult
    obtain ⟨rfl, hverdict⟩ := hresult
    rcases hsound.verdict_eq hlength with ⟨_, herror⟩ | ⟨hlast, hok⟩
    · cases hverdict.trans herror
    · cases hverdict.trans hok
      exact ⟨b, ⟨hsound, hsame, rfl, rfl, hsound.order_perm hlength, hlast⟩, hP⟩
  | stuck e _ _ hresult =>
    rw [h, Prod.mk.injEq] at hresult
    cases hresult.2

/-- The same without a further property. -/
theorem sound_of_listSchedule {g : Graph} {records final : Array Record} {order : List Slot}
    (hg : g.Inverted) (hsize : records.size = g.size) (hpos : Positioned records)
    (h : listSchedule g records = (final, .ok order)) :
    ∃ b, Sound g b ∧ SameBlock records final ∧ b.records = final ∧ b.order = order ∧
      order.Perm (List.range g.size) := by
  obtain ⟨b, hb, _⟩ := finished_of_listSchedule (P := fun _ => True) hg hsize hpos
    (fun _ _ => trivial) (fun _ _ _ _ _ _ _ _ _ => trivial) h
  exact ⟨b, hb.sound, hb.sameBlock, hb.records_eq, hb.order_eq, hb.order_perm⟩

/-- If a slot has issued on a sound board, it has issued on time. Its ready time is the latest arrival over its
edges, all of whose sources have issued before. -/
theorem Board.Sound.onTime {g : Graph} {b : Board} (h : Sound g b) {s : Slot} {r : Record}
    (hs : s ∈ b.order) (hr : b.records[s]? = some r) : OnTime g b.records s r := by
  have hpreds : ∀ d ∈ g.predsOf s, d.slot ∈ b.order ∧ b.cycleOf d.slot < b.cycleOf s :=
    fun d hd => h.later s hs d.slot ⟨d, hd, rfl⟩
  have hready : b.readyTime s = r.readyTime := by
    unfold Board.readyTime
    rw [hr]
    rfl
  have hlatest : r.readyTime = latest ((g.predsOf s).map b.arrival) := by
    rw [← hready]
    exact h.readyTime_eq s (Or.inl hs)
  have htime := h.issueTime_eq s hs
  unfold Board.issueTime at htime
  rw [hr, Option.bind_some] at htime
  constructor
  case ready_zero =>
    intro hnil
    rw [hlatest, hnil]
    rfl
  case ready_delivered =>
    intro hne
    -- the latest arrival is one of the arrivals
    have hmax := max?_eq_latest (l := (g.predsOf s).map b.arrival) (by simpa using hne)
    obtain ⟨d, hd, harr⟩ := List.mem_map.mp (List.max?_mem hmax)
    refine ⟨d, hd, ?_⟩
    rw [hlatest, ← harr]
    exact h.delivers_arrival (hpreds d hd).1
  case delivered_le =>
    intro d hd
    refine ⟨b.arrival d, h.delivers_arrival (hpreds d hd).1, ?_⟩
    rw [hlatest]
    exact le_latest (List.mem_map_of_mem hd)
  case issued =>
    -- a slot waits for its ready time, and edges lead to later cycles even with no latency at all
    refine ⟨b.cycleOf s, htime, ?_, ?_⟩
    · rw [← hready]
      exact h.waited s hs
    · intro d hd
      obtain ⟨source, earlier, hsource, hearlier, _⟩ := h.delivers_arrival (hpreds d hd).1
      refine ⟨source, earlier, hsource, hearlier, ?_⟩
      have hcycle : b.cycleOf d.slot = earlier := by
        unfold cycleOf Board.issueTime
        rw [hsource, Option.bind_some, hearlier]
        rfl
      rw [← hcycle]
      exact (hpreds d hd).2

/-- **Every edge is respected with its full delay.** If an order is returned, the records are the given
ones with times written in, and every one of them has issued on time. -/
theorem listSchedule_respects_edges {g₀ g : Graph} {records final : Array Record} {order : List Slot}
    (hpos : Positioned records) (hsize : g₀.size = records.size) (hinv : g₀.invert = .ok g)
    (h : listSchedule g records = (final, .ok order)) :
    SameBlock records final ∧
      ∀ (s : Nat) (r : Record), final[s]? = some r → OnTime g final s r := by
  have hg := inverted_of_invert hinv
  have hsize' : records.size = g.size := by rw [size_of_invert hinv, hsize]
  obtain ⟨b, hsound, hsame, rfl, rfl, hperm⟩ := sound_of_listSchedule hg hsize' hpos h
  refine ⟨hsame, ?_⟩
  intro s r hr
  have hlt : s < g.size := by
    rw [← hsound.size_eq]
    exact (Array.getElem?_eq_some_iff.mp hr).1
  exact hsound.onTime (hperm.mem_iff.mpr (List.mem_range.mpr hlt)) hr

/-- Three records of latency zero, the last a delimiter. -/
def zeroLatencyRecords : Array Record :=
  #[{ slot := 0, inst := { mnemonic := .mov }, port := .either, latency := 0 },
    { slot := 1, inst := { mnemonic := .mov }, port := .either, latency := 0 },
    { slot := 2, inst := { mnemonic := .ret }, port := .either, latency := 0 }]

/-- A chain through them, with two edges of different hazards between the first two. -/
def zeroLatencyChain : Graph :=
  Graph.empty.addNode.addNode.addNode.insertEdges
    [{ source := 0, target := 1, hazard := .raw }, { source := 0, target := 1, hazard := .war },
     { source := 1, target := 2, hazard := .raw }]

/-- The chain issues in three cycles, although no latency asks for a later cycle. -/
theorem listSchedule_respects_zero_latencies :
    Positioned zeroLatencyRecords ∧ zeroLatencyChain.size = zeroLatencyRecords.size ∧
      ∃ g final, zeroLatencyChain.invert = .ok g ∧
        listSchedule g zeroLatencyRecords = (final, .ok [0, 1, 2]) ∧
        ∀ (s : Nat) (r : Record), final[s]? = some r → OnTime g final s r := by
  have hpos : Positioned zeroLatencyRecords := by
    intro i r hr
    obtain ⟨hlt, rfl⟩ := Array.getElem?_eq_some_iff.mp hr
    match i, hlt with
    | 0, _ => rfl
    | 1, _ => rfl
    | 2, _ => rfl
  have hsize : zeroLatencyChain.size = zeroLatencyRecords.size := rfl
  exact ⟨hpos, hsize, _, _, rfl, rfl, (listSchedule_respects_edges hpos hsize rfl rfl).2⟩

end DualIssue
