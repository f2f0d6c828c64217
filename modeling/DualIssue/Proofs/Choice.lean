import DualIssue.Proofs.Issue

/-!
# What a cycle chooses

Each cycle looks for the next time at which something may issue and picks one or two of the slots on
offer. This module says what an offer is, that one exists as long as any slot is ready, and what the
pick takes from it.

* **`Offer`**: ready slots whose inputs are there at the offered time. They are all the inner slots that
  are due, or, when no inner slot is ready, one delimiter.
* **`offer_of_nextCandidates`** and **`nextCandidates_eq_error`**: a search ends with an offer, or nothing
  is ready.
* **`Chosen`**: the pick is not empty, has no slot twice, and comes from the offer.
* **`step_eq_ok`** and **`step_eq_error`** put choice and issue together.
-/

namespace DualIssue

/-- Every record stands at the position that it names. -/
def Positioned (records : Array Record) : Prop :=
  ∀ (i : Nat) (r : Record), records[i]? = some r → r.slot = i

instance (records : Array Record) : Decidable (Positioned records) :=
  decidable_of_iff (∀ i : Fin records.size, records[i].slot = i) <| by
    constructor
    · intro h i r hr
      obtain ⟨hlt, rfl⟩ := Array.getElem?_eq_some_iff.mp hr
      exact h ⟨i, hlt⟩
    · intro h i
      exact h i records[i] (Array.getElem?_eq_getElem i.isLt)

namespace Board

/-! ## Offers

`nextCandidates` tries three things in turn: the slots that are due now, those of the next cycle in which an
inner slot is due, and the first delimiter. An offer says what these have in common, so that nothing after
this section has to tell them apart. -/

/-- The slots from which a cycle at `time` picks. -/
structure Offer (b : Board) (time : Nat) (candidates : List Slot) : Prop where
  time_le : b.time ≤ time
  /-- The clock jumps only to the time of a ready slot. -/
  time_reached : time ≤ b.time ∨ ∃ s ∈ b.ready, time ≤ b.readyTime s
  /-- It never jumps past the time of an inner slot that is ready. -/
  not_past : ∀ s ∈ b.readyInner, time ≤ max b.time (b.readyTime s)
  ne_nil : candidates ≠ []
  mem_ready : ∀ s ∈ candidates, s ∈ b.ready
  due : ∀ s ∈ candidates, b.readyTime s ≤ time
  /-- A delimiter is offered alone, and only if no inner slot is ready. -/
  inner_or_delimiter : candidates = b.candidatesAt time ∨
    b.readyInner = [] ∧ ∃ s, candidates = [s] ∧ b.isDelimiter s = true

theorem mem_readyInner_iff {b : Board} {s : Slot} :
    s ∈ b.readyInner ↔ s ∈ b.ready ∧ b.isDelimiter s = false := by
  unfold readyInner
  rw [List.mem_filter]
  simp

theorem mem_candidatesAt_iff {b : Board} {time : Nat} {s : Slot} :
    s ∈ b.candidatesAt time ↔ s ∈ b.readyInner ∧ b.readyTime s ≤ time := by
  unfold candidatesAt
  rw [List.mem_filter]
  simp

/-- What is due at a time that has come is an offer. Both of the first two branches of the search end here, with
different reasons for the time. -/
theorem offer_candidatesAt {b : Board} {time : Nat} (htime : b.time ≤ time)
    (hreached : time ≤ b.time ∨ ∃ s ∈ b.ready, time ≤ b.readyTime s)
    (hnot_past : ∀ s ∈ b.readyInner, time ≤ max b.time (b.readyTime s))
    (hne : b.candidatesAt time ≠ []) : b.Offer time (b.candidatesAt time) where
  time_le := htime
  time_reached := hreached
  not_past := hnot_past
  ne_nil := hne
  mem_ready := fun _ hs => (mem_readyInner_iff.mp (mem_candidatesAt_iff.mp hs).1).1
  due := fun _ hs => (mem_candidatesAt_iff.mp hs).2
  inner_or_delimiter := Or.inl rfl

/-- A clock that goes no further than to the ready time of some ready slot stands still or is reached by that
slot. -/
theorem max_reached {b : Board} {s : Slot} (hs : s ∈ b.ready) {ready : Nat}
    (hready : ready ≤ b.readyTime s) :
    max b.time ready ≤ b.time ∨ ∃ s ∈ b.ready, max b.time ready ≤ b.readyTime s := by
  rcases Nat.le_total ready b.time with h | h
  · exact Or.inl (Nat.max_le.mpr ⟨Nat.le_refl _, h⟩)
  · exact Or.inr ⟨s, hs, Nat.max_le.mpr ⟨Nat.le_trans h hready, hready⟩⟩

/-- **A successful search ends with an offer.** The cases are the branches of the search. A jump of the clock
goes to the least ready time of the inner slots, so that the slot with this time is offered and none is passed. -/
theorem offer_of_nextCandidates {b : Board} {time : Nat} {candidates : List Slot}
    (h : b.nextCandidates = .ok (time, candidates)) : b.Offer time candidates := by
  unfold nextCandidates at h
  split at h
  · -- something is due now
    rename_i slot rest hnow
    cases h
    rw [← hnow]
    exact offer_candidatesAt (Nat.le_refl _) (Or.inl (Nat.le_refl _))
      (fun _ _ => Nat.le_max_left _ _) (by rw [hnow]; exact List.cons_ne_nil _ _)
  · split at h
    · -- the clock jumps to the first inner slot that will be due
      rename_i earliest hmin
      cases h
      have hmem : earliest ∈ b.readyInner.map b.readyTime := List.min?_mem hmin
      obtain ⟨s, hs, hsready⟩ := List.mem_map.mp hmem
      refine offer_candidatesAt (Nat.le_max_left _ _) ?_ ?_ ?_
      · refine max_reached (mem_readyInner_iff.mp hs).1 (Nat.le_of_eq hsready.symm)
      · intro s' hs'
        have hle : earliest ≤ b.readyTime s' :=
          (List.min?_eq_some_iff.mp hmin).2 _ (List.mem_map_of_mem hs')
        omega
      -- the slot that the clock jumped to is due
      refine List.ne_nil_of_mem (a := s) (mem_candidatesAt_iff.mpr ⟨hs, ?_⟩)
      rw [hsready]
      exact Nat.le_max_right _ _
    · rename_i hnone
      have hinner : b.readyInner = [] := by
        rw [List.min?_eq_none_iff] at hnone
        exact List.map_eq_nil_iff.mp hnone
      split at h
      · -- only a delimiter is left
        rename_i slot hfind
        cases h
        refine ⟨Nat.le_max_left _ _, ?_, ?_, List.cons_ne_nil _ _, ?_, ?_, ?_⟩
        · exact max_reached (List.mem_of_find?_eq_some hfind) (Nat.le_refl _)
        · rw [hinner]
          exact fun _ hs => nomatch hs
        · intro s hs
          rw [List.mem_singleton.mp hs]
          exact List.mem_of_find?_eq_some hfind
        · intro s hs
          rw [List.mem_singleton.mp hs]
          exact Nat.le_max_right _ _
        · exact Or.inr ⟨hinner, slot, rfl, List.find?_some hfind⟩
      · cases h

/-- A search fails only if nothing is ready, and reports the current time. -/
theorem nextCandidates_eq_error {b : Board} {e : ScheduleError} (h : b.nextCandidates = .error e) :
    b.ready = [] ∧ e = .noReadyInstruction b.time := by
  unfold nextCandidates at h
  split at h
  · cases h
  · split at h
    · cases h
    · rename_i hnone
      split at h
      · cases h
      · rename_i hfind
        cases h
        refine ⟨?_, rfl⟩
        -- a ready slot would be a delimiter or an inner slot
        rw [List.eq_nil_iff_forall_not_mem]
        intro s hs
        rw [List.min?_eq_none_iff] at hnone
        have hinner : b.readyInner = [] := List.map_eq_nil_iff.mp hnone
        have hdelim : ¬ b.isDelimiter s = true := List.find?_eq_none.mp hfind s hs
        have hmem : s ∈ b.readyInner := mem_readyInner_iff.mpr ⟨hs, by simpa using hdelim⟩
        rw [hinner] at hmem
        cases hmem

/-! ## Picking from an offer

The pick is the best slot of the offer and the best of those that pair with it. `best` is a fold that keeps the
better of two slots; what matters of it here is that it returns a member. That the two slots of a pick differ
rests on the records standing in their positions: pairing compares the slot that a record names, not its
position. -/

/-- The best of some slots is one of them. Induction on the fold, for any slot that it starts with. -/
theorem best_mem {b : Board} {slots : List Slot} {s : Slot} (h : b.best slots = some s) :
    s ∈ slots := by
  cases slots with
  | nil => cases h
  | cons first rest =>
    cases h
    -- the fold goes from one member to another
    have hfold : ∀ (rest : List Slot) (top : Slot),
        rest.foldl (fun top s => if b.priority top < b.priority s then s else top) top
          ∈ top :: rest := by
      intro rest
      induction rest with
      | nil => exact fun top => List.mem_cons_self
      | cons s rest ih =>
        intro top
        rw [List.foldl_cons]
        split
        · exact List.mem_cons_of_mem _ (ih s)
        · rcases List.mem_cons.mp (ih top) with heq | hmem
          · rw [heq]
            exact List.mem_cons_self
          · exact List.mem_cons_of_mem _ (List.mem_cons_of_mem _ hmem)
    exact hfold rest first

theorem best_eq_none_iff {b : Board} {slots : List Slot} : b.best slots = none ↔ slots = [] := by
  cases slots with
  | nil => exact ⟨fun _ => rfl, fun _ => rfl⟩
  | cons s rest =>
    constructor
    · intro h
      cases h
    · intro h
      cases h

/-- What issues together at `time`. -/
structure Chosen (b : Board) (time : Nat) (slots : List Slot) : Prop where
  time_le : b.time ≤ time
  ne_nil : slots ≠ []
  nodup : slots.Nodup
  mem_ready : ∀ s ∈ slots, s ∈ b.ready
  due : ∀ s ∈ slots, b.readyTime s ≤ time
  /-- A delimiter issues alone, and only if no inner slot is ready. -/
  inner_or_delimiter : (∀ s ∈ slots, b.isDelimiter s = false) ∨
    b.readyInner = [] ∧ ∃ s, slots = [s] ∧ b.isDelimiter s = true

/-- No slot pairs with itself, if every record names its own position. -/
theorem ne_of_pairsWith {b : Board} (hpos : Positioned b.records) {primary s : Slot}
    (h : b.pairsWith primary s = true) : s ≠ primary := by
  unfold pairsWith at h
  split at h
  · rename_i p r _ hr
    rw [Bool.and_eq_true] at h
    have hne : r.slot ≠ primary := of_decide_eq_true h.1
    rwa [hpos s r hr] at hne
  · cases h

theorem mem_of_mem_choose {b : Board} {candidates : List Slot} {s : Slot}
    (h : s ∈ b.choose candidates) : s ∈ candidates := by
  unfold choose at h
  split at h
  · cases h
  · rename_i primary hbest
    rcases List.mem_cons.mp h with rfl | hsecond
    · exact best_mem hbest
    · have hmem := best_mem (Option.mem_toList.mp hsecond)
      exact (List.mem_filter.mp hmem).1

theorem choose_ne_nil {b : Board} {candidates : List Slot} (h : candidates ≠ []) :
    b.choose candidates ≠ [] := by
  unfold choose
  split
  · rename_i hbest
    exact absurd (best_eq_none_iff.mp hbest) h
  · exact List.cons_ne_nil _ _

/-- A pick has no slot twice: the second pairs with the first. -/
theorem nodup_choose {b : Board} (hpos : Positioned b.records) (candidates : List Slot) :
    (b.choose candidates).Nodup := by
  unfold choose
  split
  · exact List.nodup_nil
  · rename_i primary hbest
    cases hsec : b.best (candidates.filter (b.pairsWith primary)) with
    | none => simp
    | some s =>
      have hpair := (List.mem_filter.mp (best_mem hsec)).2
      simpa using (ne_of_pairsWith hpos hpair).symm

theorem choose_singleton {b : Board} (hpos : Positioned b.records) (s : Slot) :
    b.choose [s] = [s] := by
  have hall : ∀ s' ∈ b.choose [s], s' = s := fun s' hs' => List.mem_singleton.mp (mem_of_mem_choose hs')
  -- the pick is not empty, has no slot twice and knows one slot only
  have hreplicate := List.eq_replicate_of_mem hall
  have hlength : (b.choose [s]).length = 1 := by
    have hle : (b.choose [s]).length ≤ 1 := by
      have hnodup := nodup_choose hpos [s]
      rw [hreplicate] at hnodup
      exact List.nodup_replicate.mp hnodup
    have hpos : 0 < (b.choose [s]).length := List.length_pos_iff.mpr (choose_ne_nil (List.cons_ne_nil s []))
    omega
  rw [hreplicate, hlength]
  rfl

/-- **The pick from an offer** is `Chosen`. What holds of all slots on offer holds of those picked
(`mem_of_mem_choose`); a delimiter is offered alone, hence picked alone. -/
theorem chosen_of_offer {b : Board} (hpos : Positioned b.records) {time : Nat}
    {candidates : List Slot} (ho : b.Offer time candidates) :
    b.Chosen time (b.choose candidates) := by
  constructor
  case time_le => exact ho.time_le
  case ne_nil => exact choose_ne_nil ho.ne_nil
  case nodup => exact nodup_choose hpos candidates
  case mem_ready => exact fun s hs => ho.mem_ready s (mem_of_mem_choose hs)
  case due => exact fun s hs => ho.due s (mem_of_mem_choose hs)
  case inner_or_delimiter =>
    rcases ho.inner_or_delimiter with hinner | ⟨hnone, s, rfl, hdelim⟩
    · left
      intro s hs
      have hmem := mem_of_mem_choose hs
      rw [hinner] at hmem
      exact (mem_readyInner_iff.mp (mem_candidatesAt_iff.mp hmem).1).2
    · exact Or.inr ⟨hnone, s, choose_singleton hpos s, hdelim⟩

/-! ## One step

A step is a search, a pick and a cycle of issue. The two theorems invert it for its two outcomes. -/

/-- **A step that succeeds** issues what it has chosen from an offer. -/
theorem step_eq_ok {g : Graph} {b b' : Board} (h : b.step g = .ok b') :
    ∃ time candidates, b.Offer time candidates ∧
      issueAll g { b with time } (b.choose candidates) = .ok b' := by
  unfold step at h
  obtain ⟨⟨time, candidates⟩, hnext, h⟩ := Except.bind_eq_ok_iff.mp h
  refine ⟨time, candidates, offer_of_nextCandidates hnext, ?_⟩
  dsimp only at h
  split at h
  · cases h
  · exact liftFault_eq_ok_iff.mp h

/-- **A step that fails** finds nothing ready, or a count overflows in the cycle that it has chosen. The branch
for an empty pick cannot be taken, because an offer is never empty; so issuing is what fails, and it fails by
overflow only (`issueAll_eq_error`). -/
theorem step_eq_error {g : Graph} (hg : g.Inverted) {b : Board} (hpos : Positioned b.records)
    (hsize : g.size ≤ b.records.size) {e : ScheduleError} (h : b.step g = .error e) :
    (e = .fault .overflow ∧ ∃ time candidates, b.Offer time candidates ∧
        Overflows g { b with time } (b.choose candidates)) ∨
      b.ready = [] ∧ e = .noReadyInstruction b.time := by
  unfold step at h
  rcases Except.bind_eq_error_iff.mp h with hnext | ⟨⟨time, candidates⟩, hnext, h⟩
  · exact Or.inr (nextCandidates_eq_error hnext)
  · dsimp only at h
    have hoffer := offer_of_nextCandidates hnext
    split at h
    · rename_i hnil
      exact absurd hnil (chosen_of_offer hpos hoffer).ne_nil
    · obtain ⟨f, hf, rfl⟩ := liftFault_eq_error_iff.mp h
      obtain ⟨rfl, hover⟩ := issueAll_eq_error hg (b := { b with time }) hsize hf
      exact Or.inl ⟨rfl, time, candidates, hoffer, hover⟩

end Board

end DualIssue
