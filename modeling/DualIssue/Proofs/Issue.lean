import DualIssue.ListSchedule
import DualIssue.Proofs.GraphEdges

/-!
# What a cycle does to the board

A cycle issues the chosen slots, wakes those successors whose predecessors have then all issued, and
moves the clock. This module says once what comes of it, slot by slot; the invariants of list scheduling
follow from that and never open `issueAll` again.

* **`issueAll_eq_ok`** turns the checked computation into two pure folds.
* **`Issued`** is the result: the order grows by the chosen slots, these get the cycle as their issue
  time, the woken slots become ready with the latest arrival as their ready time, and nothing else
  changes. `issued_of_issueAll` proves it.
* **`issueAll_eq_error`**: the only failure over an inverted graph is a count that overflows.
-/

namespace DualIssue

/-- The record without what scheduling writes into it. -/
def Record.given (r : Record) : Record := { r with readyTime := 0, issueTime := none }

/-- A new slot goes to its place, so the list stays ascending. Induction on the list. -/
theorem insertAscending_sorted {slot : Slot} {slots : List Slot} (h : slots.Pairwise (· < ·))
    (hnew : slot ∉ slots) : (insertAscending slot slots).Pairwise (· < ·) := by
  induction slots with
  | nil => simp [insertAscending]
  | cons s rest ih =>
    obtain ⟨hs, hrest⟩ := List.pairwise_cons.mp h
    unfold insertAscending
    split
    · rename_i hlt
      refine List.pairwise_cons.mpr ⟨?_, h⟩
      intro x hx
      rcases List.mem_cons.mp hx with rfl | hx
      · exact hlt
      · exact Nat.lt_trans hlt (hs x hx)
    · rename_i hge
      refine List.pairwise_cons.mpr ⟨?_, ih hrest fun hmem => hnew (List.mem_cons_of_mem _ hmem)⟩
      intro x hx
      rcases mem_insertAscending.mp hx with rfl | hx
      · -- `slot` is neither below `s` nor equal to it
        have hne : x ≠ s := fun heq => hnew (heq ▸ List.mem_cons_self)
        exact Nat.lt_of_le_of_ne (Nat.le_of_not_lt hge) (Ne.symm hne)
      · exact hs x hx

namespace Board

/-- The cycle in which a slot issues, according to its record. -/
def issueTime (b : Board) (slot : Slot) : Option Nat := b.records[slot]?.bind (·.issueTime)

/-- The issue time of a slot that has issued. -/
def cycleOf (b : Board) (slot : Slot) : Nat := (b.issueTime slot).getD 0

/-- All predecessors of the slot have issued, and the slot has not. -/
def Eligible (g : Graph) (b : Board) (slot : Slot) : Prop :=
  slot ∉ b.order ∧ ∀ d ∈ g.predsOf slot, d.slot ∈ b.order

instance (g : Graph) (b : Board) (slot : Slot) : Decidable (b.Eligible g slot) :=
  inferInstanceAs (Decidable (slot ∉ b.order ∧ ∀ d ∈ g.predsOf slot, d.slot ∈ b.order))

/-! ## Pure forms

The code checks counts while it changes the board. Here the checks are separated from the changes: `released` is
what releasing a slot does if all counts fit, and `release_eq` says when they do not. A whole cycle is then two
folds of plain functions, one over the issued slots and one over the targets of their edges. -/

/-- Releasing a slot, the counts left unchecked. -/
def released (g : Graph) (b : Board) (slot : Slot) : Board :=
  if b.Eligible g slot ∧ slot ∉ b.ready then
    { b with
      records := b.records.modify slot fun r =>
        { r with readyTime := latest ((g.predsOf slot).map b.arrival) }
      ready := insertAscending slot b.ready }
  else b

/-- The targets of the edges out of some slots, in the order in which they are released. -/
def targets (g : Graph) (slots : List Slot) : List Slot :=
  slots.flatMap fun slot => (g.succsOf slot).map (·.slot)

/-- In an inverted graph the targets of some slots are what depends on them. -/
theorem mem_targets_iff {g : Graph} (hg : g.Inverted) {slots : List Slot} {slot : Slot} :
    slot ∈ targets g slots ↔ ∃ s ∈ slots, g.Depends s slot := by
  unfold targets
  rw [List.mem_flatMap]
  constructor
  · rintro ⟨s, hs, hmem⟩
    obtain ⟨d, hd, hslot⟩ := List.mem_map.mp hmem
    exact ⟨s, hs, hg.succs_iff.mp ⟨d, hd, hslot⟩⟩
  · rintro ⟨s, hs, hdep⟩
    obtain ⟨d, hd, hslot⟩ := hg.succs_iff.mpr hdep
    exact ⟨s, hs, List.mem_map.mpr ⟨d, hd, hslot⟩⟩

/-- Releasing opened up: a slot that has issued, is ready or still waits is left alone. Otherwise it becomes
ready, unless an arrival is out of range or the slot has no record. -/
theorem release_eq (g : Graph) (b : Board) (slot : Slot) :
    b.release g slot =
      if b.Eligible g slot ∧ slot ∉ b.ready then
        if ∀ d ∈ g.predsOf slot, b.arrival d ≤ maxCycle then
          if slot < b.records.size then .ok (b.released g slot) else .error .missingSlot
        else .error .overflow
      else .ok (b.released g slot) := by
  unfold release
  by_cases hstay : slot ∈ b.order ∨ slot ∈ b.ready
  · have hnot : ¬ (b.Eligible g slot ∧ slot ∉ b.ready) := by
      rintro ⟨⟨hord, _⟩, hready⟩
      exact hstay.elim hord hready
    rw [if_pos hstay, if_neg hnot, released, if_neg hnot]
  · -- neither issued nor ready: what decides is whether all predecessors have issued
    rw [if_neg hstay]
    have hord : slot ∉ b.order := fun h => hstay (Or.inl h)
    have hready : slot ∉ b.ready := fun h => hstay (Or.inr h)
    by_cases hpreds : ∀ d ∈ g.predsOf slot, d.slot ∈ b.order
    · have helig : b.Eligible g slot ∧ slot ∉ b.ready := ⟨⟨hord, hpreds⟩, hready⟩
      have hall : (g.predsOf slot).all (fun d => decide (d.slot ∈ b.order)) = true := by
        rw [List.all_eq_true]
        exact fun d hd => decide_eq_true (hpreds d hd)
      simp only [hall, if_true, mapM_checkCycle, if_pos helig]
      by_cases hmax : ∀ d ∈ g.predsOf slot, b.arrival d ≤ maxCycle
      · rw [if_pos hmax, if_pos hmax]
        by_cases hlt : slot < b.records.size
        · rw [if_pos hlt, released, if_pos helig]
          show (if slot < b.records.size then _ else _) = _
          rw [if_pos hlt]
          rfl
        · rw [if_neg hlt]
          show (if slot < b.records.size then _ else _) = _
          rw [if_neg hlt]
          rfl
      · rw [if_neg hmax, if_neg hmax]
        rfl
    · have hnot : ¬ (b.Eligible g slot ∧ slot ∉ b.ready) := fun h => hpreds h.1.2
      have hall : ¬ (g.predsOf slot).all (fun d => decide (d.slot ∈ b.order)) = true := by
        rw [List.all_eq_true]
        exact fun h => hpreds fun d hd => of_decide_eq_true (h d hd)
      simp only [hall, if_neg hnot, released]
      rfl

theorem release_eq_ok {g : Graph} {b b' : Board} {slot : Slot} (h : b.release g slot = .ok b') :
    b' = b.released g slot := by
  rw [release_eq] at h
  split at h
  · split at h
    · split at h
      · cases h; rfl
      · cases h
    · cases h
  · cases h; rfl

/-- Releasing a slot that exists fails only if some arrival overflows. -/
theorem release_eq_error {g : Graph} {b : Board} {slot : Slot} {f : Fault}
    (h : b.release g slot = .error f) (hlt : slot < b.records.size) :
    f = .overflow ∧ b.Eligible g slot ∧ ∃ d ∈ g.predsOf slot, maxCycle < b.arrival d := by
  rw [release_eq] at h
  split at h
  · rename_i helig
    split at h
    · cases h
    · rename_i hmax
      cases h
      refine ⟨rfl, helig.1, ?_⟩
      simpa using hmax
  · cases h

/-- The successors of all slots are released one after the other, so that there is one fold instead of two.
Induction on the slots. -/
theorem foldlM_releaseSuccessors (g : Graph) (b : Board) (slots : List Slot) :
    slots.foldlM (releaseSuccessors g) b = (targets g slots).foldlM (release g) b := by
  induction slots generalizing b with
  | nil => rfl
  | cons s slots ih =>
    rw [List.foldlM_cons, targets, List.flatMap_cons, List.foldlM_append, List.foldlM_map]
    show (releaseSuccessors g b s >>= fun b => slots.foldlM (releaseSuccessors g) b) =
      (releaseSuccessors g b s >>= fun b => (targets g slots).foldlM (release g) b)
    congr 1
    funext b
    exact ih b

/-- The board after the chosen slots have issued and their successors have been released, the clock not
yet moved. -/
def afterIssue (g : Graph) (b : Board) (slots : List Slot) : Board :=
  (targets g slots).foldl (released g) (slots.foldl issue b)

/-- Issuing together, as two pure folds: steps that succeed are pure (`release_eq_ok`), and so is a fold of
them. -/
theorem issueAll_eq_ok {g : Graph} {b b' : Board} {slots : List Slot}
    (h : b.issueAll g slots = .ok b') :
    b' = { b.afterIssue g slots with time := (b.afterIssue g slots).time + 1 } ∧
      b'.time ≤ maxCycle := by
  unfold issueAll at h
  obtain ⟨b₁, hrel, h⟩ := Except.bind_eq_ok_iff.mp h
  obtain ⟨time, htime, h⟩ := Except.bind_eq_ok_iff.mp h
  rw [foldlM_releaseSuccessors] at hrel
  have hb₁ : b₁ = b.afterIssue g slots :=
    foldlM_eq_foldl_of_ok (fun _ _ _ => release_eq_ok) hrel
  obtain ⟨hfits, rfl⟩ := checkCycle_eq_ok_iff.mp htime
  cases h
  exact ⟨by rw [hb₁], hfits⟩

/-! ## Issuing, slot by slot

What the first fold does to each component of the board. All of these are inductions on the issued slots. -/

@[simp] theorem time_foldl_issue (slots : List Slot) (b : Board) :
    (slots.foldl issue b).time = b.time := by
  induction slots generalizing b with
  | nil => rfl
  | cons s slots ih => rw [List.foldl_cons, ih]; rfl

@[simp] theorem order_foldl_issue (slots : List Slot) (b : Board) :
    (slots.foldl issue b).order = b.order ++ slots := by
  induction slots generalizing b with
  | nil => simp
  | cons s slots ih =>
    rw [List.foldl_cons, ih]
    show (b.order ++ [s]) ++ slots = b.order ++ s :: slots
    rw [List.append_assoc, List.singleton_append]

@[simp] theorem size_foldl_issue (slots : List Slot) (b : Board) :
    (slots.foldl issue b).records.size = b.records.size := by
  induction slots generalizing b with
  | nil => rfl
  | cons s slots ih =>
    rw [List.foldl_cons, ih]
    show (b.records.modify s _).size = _
    rw [Array.size_modify]

theorem ready_foldl_issue (slots : List Slot) (b : Board) :
    (slots.foldl issue b).ready = b.ready.filter (· ∉ slots) := by
  induction slots generalizing b with
  | nil => exact (List.filter_eq_self.mpr (by simp)).symm
  | cons s slots ih =>
    rw [List.foldl_cons, ih]
    show (b.ready.filter (· ≠ s)).filter (· ∉ slots) = b.ready.filter (· ∉ s :: slots)
    rw [List.filter_filter]
    congr 1
    funext x
    simp [Bool.and_comm]

/-- The records of the issued slots get the cycle as their issue time, all others stay. -/
theorem getElem?_foldl_issue (slots : List Slot) (b : Board) (i : Nat) :
    (slots.foldl issue b).records[i]? =
      b.records[i]?.map fun r => if i ∈ slots then { r with issueTime := some b.time } else r := by
  induction slots generalizing b with
  | nil => simp
  | cons s slots ih =>
    have hissue : (b.issue s).records[i]? =
        b.records[i]?.map fun r => if s = i then { r with issueTime := some b.time } else r := by
      show (b.records.modify s _)[i]? = _
      rw [Array.getElem?_modify]
      -- a slot that is issued twice gets the same cycle twice
      by_cases hs : s = i
      · simp [hs]
      · simp [hs]
    rw [List.foldl_cons, ih, hissue, Option.map_map]
    congr 1
    funext r
    show (if i ∈ slots then _ else _) = _
    by_cases hs : s = i
    · subst hs
      by_cases hmem : s ∈ slots <;> simp [hmem, issue]
    · have hmem : i ∈ s :: slots ↔ i ∈ slots := by simp [Ne.symm hs]
      simp only [hs, hmem, if_false]
      rfl

/-! ## Releasing, slot by slot

The second fold changes ready slots and ready times and leaves the rest of the board alone (`SameFrame`). In
particular no arrival depends on what it writes, so the order in which slots are released does not matter. -/

@[simp] theorem order_released (g : Graph) (b : Board) (slot : Slot) :
    (b.released g slot).order = b.order := by
  unfold released
  split <;> rfl

@[simp] theorem time_released (g : Graph) (b : Board) (slot : Slot) :
    (b.released g slot).time = b.time := by
  unfold released
  split <;> rfl

@[simp] theorem size_released (g : Graph) (b : Board) (slot : Slot) :
    (b.released g slot).records.size = b.records.size := by
  unfold released
  split
  · show (b.records.modify slot _).size = _
    rw [Array.size_modify]
  · rfl

/-- Whether a slot is eligible depends on the order only. -/
theorem eligible_congr {g : Graph} {b b' : Board} (h : b'.order = b.order) (slot : Slot) :
    b'.Eligible g slot ↔ b.Eligible g slot := by
  unfold Eligible
  rw [h]

/-- Releasing a slot makes it ready if it is eligible, whether or not it was ready before. -/
theorem mem_ready_released {g : Graph} {b : Board} {slot s : Slot} :
    s ∈ (b.released g slot).ready ↔ s ∈ b.ready ∨ (s = slot ∧ b.Eligible g slot) := by
  unfold released
  by_cases h : b.Eligible g slot ∧ slot ∉ b.ready
  · rw [if_pos h]
    show s ∈ insertAscending slot b.ready ↔ _
    rw [mem_insertAscending]
    constructor
    · rintro (rfl | hs)
      · exact Or.inr ⟨rfl, h.1⟩
      · exact Or.inl hs
    · rintro (hs | ⟨rfl, _⟩)
      · exact Or.inr hs
      · exact Or.inl rfl
  · rw [if_neg h]
    constructor
    · exact Or.inl
    · rintro (hs | ⟨rfl, helig⟩)
      · exact hs
      · exact Classical.byContradiction fun hs => h ⟨helig, hs⟩

/-- The record of a slot that becomes ready gets its ready time, all others stay. -/
theorem getElem?_released (g : Graph) (b : Board) (slot : Slot) (i : Nat) :
    (b.released g slot).records[i]? = b.records[i]?.map fun r =>
      if i = slot ∧ b.Eligible g i ∧ i ∉ b.ready then
        { r with readyTime := latest ((g.predsOf i).map b.arrival) }
      else r := by
  unfold released
  by_cases h : b.Eligible g slot ∧ slot ∉ b.ready
  · rw [if_pos h]
    show (b.records.modify slot _)[i]? = _
    rw [Array.getElem?_modify]
    by_cases hs : slot = i
    · subst hs
      simp [h.1, h.2]
    · simp [hs, Ne.symm hs]
  · rw [if_neg h]
    have hnot : ¬ (i = slot ∧ b.Eligible g i ∧ i ∉ b.ready) := by
      rintro ⟨rfl, helig⟩
      exact h helig
    simp [hnot]

/-- An arrival depends on the issue time and the latency of its source, and on nothing else in the records. -/
theorem arrival_congr {b b' : Board} {d : Dependency}
    (h : b'.records[d.slot]?.map (fun r => (r.issueTime, r.latency)) =
      b.records[d.slot]?.map (fun r => (r.issueTime, r.latency))) :
    b'.arrival d = b.arrival d := by
  unfold arrival
  cases hb : b.records[d.slot]? with
  | none =>
    rw [hb, Option.map_none, Option.map_eq_none_iff] at h
    rw [h]
  | some r =>
    rw [hb, Option.map_some, Option.map_eq_some_iff] at h
    obtain ⟨r', hr', hfields⟩ := h
    rw [hr']
    obtain ⟨htime, hlat⟩ := Prod.mk.injEq .. ▸ hfields
    simp only [htime, hlat]

/-- Releasing writes ready times, so no arrival changes. -/
theorem arrival_released (g : Graph) (b : Board) (slot : Slot) (d : Dependency) :
    (b.released g slot).arrival d = b.arrival d := by
  apply arrival_congr
  rw [getElem?_released, Option.map_map]
  congr 1
  funext r
  show (_, _) = _
  split <;> rfl

theorem ready_released_sorted {g : Graph} {b : Board} {slot : Slot}
    (h : b.ready.Pairwise (· < ·)) : (b.released g slot).ready.Pairwise (· < ·) := by
  unfold released
  split
  · rename_i hslot
    exact insertAscending_sorted h hslot.2
  · exact h

/-- What releasing several slots leaves alone. -/
structure SameFrame (b b' : Board) : Prop where
  order_eq : b'.order = b.order
  time_eq : b'.time = b.time
  size_eq : b'.records.size = b.records.size
  arrival_eq : ∀ d, b'.arrival d = b.arrival d
  sorted : b.ready.Pairwise (· < ·) → b'.ready.Pairwise (· < ·)

theorem SameFrame.released {b b' : Board} (h : SameFrame b b') (g : Graph) (slot : Slot) :
    SameFrame b (b'.released g slot) where
  order_eq := by rw [order_released, h.order_eq]
  time_eq := by rw [time_released, h.time_eq]
  size_eq := by rw [size_released, h.size_eq]
  arrival_eq := fun d => by rw [arrival_released, h.arrival_eq]
  sorted := fun hb => ready_released_sorted (h.sorted hb)

/-- Releasing several slots leaves the frame alone. Induction on the slots, with the board that it is compared
with fixed. -/
theorem sameFrame_foldl_released (g : Graph) (slots : List Slot) (b : Board) :
    SameFrame b (slots.foldl (released g) b) := by
  have hfold : ∀ (slots : List Slot) (b' : Board), SameFrame b b' →
      SameFrame b (slots.foldl (Board.released g) b') := by
    intro slots
    induction slots with
    | nil => exact fun b' h => h
    | cons s slots ih => exact fun b' h => ih _ (h.released g s)
  exact hfold slots b ⟨rfl, rfl, rfl, fun _ => rfl, id⟩

/-- Of the released slots those that are eligible become ready. Induction on the slots; releasing one does not
change which others are eligible. -/
theorem mem_ready_foldl_released {g : Graph} {slots : List Slot} {b : Board} {s : Slot} :
    s ∈ (slots.foldl (released g) b).ready ↔ s ∈ b.ready ∨ (s ∈ slots ∧ b.Eligible g s) := by
  induction slots generalizing b with
  | nil => simp
  | cons a slots ih =>
    rw [List.foldl_cons, ih, mem_ready_released, eligible_congr (order_released g b a),
      List.mem_cons]
    constructor
    · rintro ((hs | ⟨rfl, helig⟩) | ⟨hs, helig⟩)
      · exact Or.inl hs
      · exact Or.inr ⟨Or.inl rfl, helig⟩
      · exact Or.inr ⟨Or.inr hs, helig⟩
    · rintro (hs | ⟨rfl | hs, helig⟩)
      · exact Or.inl (Or.inl hs)
      · exact Or.inl (Or.inr ⟨rfl, helig⟩)
      · exact Or.inr ⟨hs, helig⟩

/-- Of the released slots those that become ready get the latest arrival as their ready time. A slot
that is released twice is ready the second time and keeps it. -/
theorem getElem?_foldl_released (g : Graph) (slots : List Slot) (b : Board) (i : Nat) :
    (slots.foldl (released g) b).records[i]? = b.records[i]?.map fun r =>
      if i ∈ slots ∧ b.Eligible g i ∧ i ∉ b.ready then
        { r with readyTime := latest ((g.predsOf i).map b.arrival) }
      else r := by
  induction slots generalizing b with
  | nil => simp
  | cons a slots ih =>
    have harr : (b.released g a).arrival = b.arrival := funext (arrival_released g b a)
    rw [List.foldl_cons, ih, getElem?_released, Option.map_map, harr]
    congr 1
    funext r
    simp only [Function.comp, eligible_congr (order_released g b a), mem_ready_released,
      List.mem_cons]
    by_cases ha : i = a
    · -- the slot just released: if it has become ready, a later release leaves it alone
      subst ha
      by_cases helig : b.Eligible g i ∧ i ∉ b.ready
      · simp [helig.1, helig.2]
      · have hnot : ¬ (i ∈ slots ∧ b.Eligible g i ∧ ¬ (i ∈ b.ready ∨ i = i ∧ b.Eligible g i)) := by
          rintro ⟨_, h, hready⟩
          exact hready (Or.inr ⟨rfl, h⟩)
        rw [if_neg hnot, if_neg fun h => helig h.2, if_neg fun h => helig h.2]
    · simp [ha]

/-! ## The whole cycle

The two folds are put together. A slot `Wakes` if it is a target that becomes eligible in this cycle. What a
cycle does to the board is `Issued`, in which no fold occurs any more. -/

/-- A slot wakes when one of its predecessors is among `slots`, and with these all have issued. -/
def Wakes (g : Graph) (b : Board) (slots : List Slot) (slot : Slot) : Prop :=
  (∃ s ∈ slots, g.Depends s slot) ∧ slot ∉ b.order ∧ slot ∉ slots ∧ slot ∉ b.ready ∧
    ∀ d ∈ g.predsOf slot, d.slot ∈ b.order ∨ d.slot ∈ slots

/-- What a cycle at `time` that issues `slots` makes of a board. -/
structure Issued (g : Graph) (b : Board) (time : Nat) (slots : List Slot) (b' : Board) : Prop where
  time_eq : b'.time = time + 1
  time_fits : b'.time ≤ maxCycle
  order_eq : b'.order = b.order ++ slots
  size_eq : b'.records.size = b.records.size
  mem_ready_iff : ∀ s, s ∈ b'.ready ↔ (s ∈ b.ready ∧ s ∉ slots) ∨ b.Wakes g slots s
  ready_sorted : b.ready.Pairwise (· < ·) → b'.ready.Pairwise (· < ·)
  /-- The issued slots get the cycle, and nobody else's issue time changes. -/
  issueTime_eq : ∀ s, s < b.records.size →
    b'.issueTime s = if s ∈ slots then some time else b.issueTime s
  readyTime_of_wakes : ∀ s, b.Wakes g slots s →
    b'.readyTime s = latest ((g.predsOf s).map b'.arrival)
  readyTime_of_not_wakes : ∀ s, ¬ b.Wakes g slots s → b'.readyTime s = b.readyTime s
  /-- Nothing else is written into a record. -/
  given_eq : ∀ s : Nat, b'.records[s]?.map Record.given = b.records[s]?.map Record.given

theorem wakes_iff {g : Graph} (hg : g.Inverted) {b : Board} {slots : List Slot} {s : Slot} :
    b.Wakes g slots s ↔
      s ∈ targets g slots ∧ (slots.foldl issue b).Eligible g s ∧ s ∉ (slots.foldl issue b).ready := by
  unfold Wakes Eligible
  rw [mem_targets_iff hg, order_foldl_issue, ready_foldl_issue]
  simp only [List.mem_append, List.mem_filter, decide_eq_true_eq, not_or]
  constructor
  · rintro ⟨hdep, hord, hslots, hready, hpreds⟩
    exact ⟨hdep, ⟨⟨hord, hslots⟩, hpreds⟩, fun h => hready h.1⟩
  · rintro ⟨hdep, ⟨⟨hord, hslots⟩, hpreds⟩, hready⟩
    exact ⟨hdep, hord, hslots, fun h => hready ⟨h, hslots⟩, hpreds⟩

/-- Where a record stands after the cycle, in terms of the record before it. A slot that wakes does not issue in
the same cycle, so each record is changed by one of the two folds at most. -/
theorem getElem?_afterIssue {g : Graph} (hg : g.Inverted) (b : Board) (slots : List Slot) (i : Nat) :
    (b.Wakes g slots i → (b.afterIssue g slots).records[i]? =
      b.records[i]?.map fun r =>
        { r with readyTime := latest ((g.predsOf i).map (b.afterIssue g slots).arrival) }) ∧
    (¬ b.Wakes g slots i → (b.afterIssue g slots).records[i]? =
      b.records[i]?.map fun r => if i ∈ slots then { r with issueTime := some b.time } else r) := by
  have harr : (b.afterIssue g slots).arrival = (slots.foldl issue b).arrival :=
    funext (sameFrame_foldl_released g (targets g slots) (slots.foldl issue b)).arrival_eq
  rw [harr, afterIssue, getElem?_foldl_released, getElem?_foldl_issue, Option.map_map]
  constructor
  · intro hwakes
    have hnot : i ∉ slots := hwakes.2.2.1
    congr 1
    funext r
    simp only [Function.comp, if_pos ((wakes_iff hg).mp hwakes), if_neg hnot]
  · intro hwakes
    congr 1
    funext r
    simp only [Function.comp, if_neg (mt (wakes_iff hg).mpr hwakes)]

/-- After a cycle the slots are ready that were and have not issued, and those that wake. -/
theorem mem_ready_afterIssue {g : Graph} (hg : g.Inverted) (b : Board) (slots : List Slot) (s : Slot) :
    s ∈ (b.afterIssue g slots).ready ↔ (s ∈ b.ready ∧ s ∉ slots) ∨ b.Wakes g slots s := by
  rw [afterIssue, mem_ready_foldl_released, wakes_iff hg, ready_foldl_issue, List.mem_filter,
    decide_eq_true_eq]
  constructor
  · rintro (hs | ⟨hs, helig⟩)
    · exact Or.inl hs
    · by_cases hready : s ∈ b.ready ∧ s ∉ slots
      · exact Or.inl hready
      · exact Or.inr ⟨hs, helig, hready⟩
  · rintro (hs | ⟨hs, helig, _⟩)
    · exact Or.inl hs
    · exact Or.inr ⟨hs, helig⟩

/-- **What a cycle does.** Over an inverted graph, on a board with a record for each of its slots. One case for
each field of `Issued`; those about records split on whether the slot wakes (`getElem?_afterIssue`). -/
theorem issued_of_issueAll {g : Graph} (hg : g.Inverted) {b b' : Board} {time : Nat}
    {slots : List Slot} (hsize : g.size ≤ b.records.size)
    (h : issueAll g { b with time } slots = .ok b') : Issued g b time slots b' := by
  obtain ⟨hb', hfits⟩ := issueAll_eq_ok h
  have hframe := sameFrame_foldl_released g (targets g slots) (slots.foldl issue { b with time })
  have hrec := getElem?_afterIssue hg { b with time } slots
  subst hb'
  constructor
  case time_eq =>
    show (afterIssue g { b with time } slots).time + 1 = time + 1
    rw [afterIssue, hframe.time_eq, time_foldl_issue]
  case time_fits => exact hfits
  case order_eq =>
    show (afterIssue g { b with time } slots).order = b.order ++ slots
    rw [afterIssue, hframe.order_eq, order_foldl_issue]
  case size_eq =>
    show (afterIssue g { b with time } slots).records.size = b.records.size
    rw [afterIssue, hframe.size_eq, size_foldl_issue]
  case mem_ready_iff =>
    intro s
    exact mem_ready_afterIssue hg { b with time } slots s
  case ready_sorted =>
    intro hsorted
    refine hframe.sorted ?_
    rw [ready_foldl_issue]
    exact hsorted.filter _
  -- a slot that wakes has not issued in this cycle, so the two changes of a record do not meet
  case issueTime_eq =>
    intro s hs
    show (afterIssue g { b with time } slots).records[s]?.bind _ = _
    by_cases hwakes : b.Wakes g slots s
    · rw [(hrec s).1 hwakes, if_neg hwakes.2.2.1, Option.bind_map]
      rfl
    · rw [(hrec s).2 hwakes, Option.bind_map]
      by_cases hmem : s ∈ slots
      · rw [if_pos hmem, Array.getElem?_eq_getElem hs]
        simp only [Function.comp, if_pos hmem, Option.bind_some]
      · rw [if_neg hmem]
        simp only [Function.comp_def, if_neg hmem]
        rfl
  case readyTime_of_wakes =>
    intro s hwakes
    have hlt : s < b.records.size := by
      obtain ⟨_, _, hdep⟩ := hwakes.1
      exact Nat.lt_of_lt_of_le hdep.target_lt hsize
    show ((afterIssue g { b with time } slots).records[s]?.map _).getD 0 = _
    rw [(hrec s).1 hwakes, Array.getElem?_eq_getElem hlt]
    rfl
  case readyTime_of_not_wakes =>
    intro s hwakes
    show ((afterIssue g { b with time } slots).records[s]?.map _).getD 0 = _
    rw [(hrec s).2 hwakes, Option.map_map]
    show _ = (b.records[s]?.map _).getD 0
    congr 2
    funext r
    show (if s ∈ slots then _ else _ : Record).readyTime = _
    split <;> rfl
  case given_eq =>
    intro s
    show (afterIssue g { b with time } slots).records[s]?.map _ = _
    by_cases hwakes : b.Wakes g slots s
    · rw [(hrec s).1 hwakes, Option.map_map]
      rfl
    · rw [(hrec s).2 hwakes, Option.map_map]
      congr 1
      funext r
      show (if s ∈ slots then _ else _ : Record).given = _
      split <;> rfl

/-- A count of the cycle that issues `slots` does not fit: the next cycle, or the arrival over an edge out
of a slot that has issued. -/
def Overflows (g : Graph) (b : Board) (slots : List Slot) : Prop :=
  maxCycle < b.time + 1 ∨ ∃ s, ∃ d ∈ g.predsOf s, d.slot ∈ b.order ++ slots ∧
    maxCycle < (slots.foldl issue b).arrival d

/-- **How a cycle fails.** Over an inverted graph, only by a count that overflows. The clock does, or a release
fails on a board in the same frame; its slot exists because it is the target of an edge, so it was an arrival. -/
theorem issueAll_eq_error {g : Graph} (hg : g.Inverted) {b : Board} {slots : List Slot} {f : Fault}
    (hsize : g.size ≤ b.records.size) (h : b.issueAll g slots = .error f) :
    f = .overflow ∧ b.Overflows g slots := by
  unfold issueAll at h
  rcases Except.bind_eq_error_iff.mp h with hrel | ⟨b₁, hrel, h⟩
  · rw [foldlM_releaseSuccessors] at hrel
    obtain ⟨b₁, s, hs, hb₁, herr⟩ := foldlM_error_of_preserves (P := SameFrame (slots.foldl issue b))
      ⟨rfl, rfl, rfl, fun _ => rfl, id⟩ (fun b₁ s b₂ _ hb₁ hok => release_eq_ok hok ▸ hb₁.released g s)
      hrel
    -- the released slot exists, so it was an arrival that did not fit
    obtain ⟨_, _, hdep⟩ := (mem_targets_iff hg).mp hs
    have hlt : s < b₁.records.size := by
      rw [hb₁.size_eq, size_foldl_issue]
      exact Nat.lt_of_lt_of_le hdep.target_lt hsize
    obtain ⟨rfl, helig, d, hd, hmax⟩ := release_eq_error herr hlt
    refine ⟨rfl, Or.inr ⟨s, d, hd, ?_, ?_⟩⟩
    · have hord := helig.2 d hd
      rwa [hb₁.order_eq, order_foldl_issue] at hord
    · rwa [hb₁.arrival_eq] at hmax
  · rcases Except.bind_eq_error_iff.mp h with htime | ⟨_, _, h⟩
    · obtain ⟨hmax, rfl⟩ := checkCycle_eq_error htime
      rw [foldlM_releaseSuccessors] at hrel
      rw [foldlM_eq_foldl_of_ok (fun _ _ _ => release_eq_ok) hrel,
        (sameFrame_foldl_released g _ _).time_eq, time_foldl_issue] at hmax
      exact ⟨rfl, Or.inl hmax⟩
    · cases h

end Board

end DualIssue
