import DualIssue.Proofs.IssueStream

/-!
# No cycle is wasted

A slot that could issue in a cycle and does not has been passed over: the cycle issues something at least as
urgent, and the ports leave no room beside it, or the room is taken by something at least as urgent again.

The statement is about final times, so it has to survive everything that happens after the cycle. What it
rests on are three facts about one cycle.

* **`best_outranks`**: a pick is the maximum with the tie rule, because candidates ascend.
* **`Offer.not_past`**: the clock jumps over no cycle in which an inner slot could issue.
* **`Waits.before`**: a slot that waits in a cycle was ready before it, so it stood among the candidates.

**`Greedy`** says it of all cycles up to the clock, **`Greedy.step`** is the step lemma, and
`listSchedule_greedy` reads the final records.
-/

namespace DualIssue

open DualIssue.Graph

/-- The order in which ready records are to be preferred: the one with the longer path first, where a record without a
path counts as zero, and among equals the one in the lower slot. -/
def Record.Outranks (p r : Record) : Prop :=
  r.longestPath.getD 0 < p.longestPath.getD 0 ∨
    p.longestPath.getD 0 = r.longestPath.getD 0 ∧ p.slot ≤ r.slot

namespace Board

/-! ## The pick

`best` compares priorities strictly, so of several maxima it keeps the first. Candidates are listed in ascending
order, hence that is the one in the lowest slot, and the pick is the greatest for a total order of slots. The
second place goes by the same rule among the slots that pair with the first. -/

/-- The same order on slots. -/
def Outranks (b : Board) (p s : Slot) : Prop :=
  b.priority s < b.priority p ∨ b.priority p = b.priority s ∧ p ≤ s

theorem Outranks.refl (b : Board) (s : Slot) : b.Outranks s s := Or.inr ⟨rfl, Nat.le_refl s⟩

/-- The order of preference is transitive. The four cases are which of the two comparisons is strict. -/
theorem Outranks.trans {b : Board} {p q s : Slot} (hpq : b.Outranks p q) (hqs : b.Outranks q s) :
    b.Outranks p s := by
  rcases hpq with hlt | ⟨heq, hle⟩ <;> rcases hqs with hlt' | ⟨heq', hle'⟩
  · exact Or.inl (Nat.lt_trans hlt' hlt)
  · exact Or.inl (heq' ▸ hlt)
  · exact Or.inl (heq ▸ hlt')
  · exact Or.inr ⟨heq.trans heq', Nat.le_trans hle hle'⟩

/-- The fold behind `best`. It keeps the first of several maxima, which is the lowest slot only because the list
ascends. Induction on the rest of the list, for any slot on top: the next one takes over if its path is strictly
longer, and otherwise stays outranked. -/
theorem foldl_outranks {b : Board} (rest : List Slot) (top : Slot) (h : (top :: rest).Pairwise (· < ·)) :
    ∀ s ∈ top :: rest, b.Outranks
      (rest.foldl (fun top s => if b.priority top < b.priority s then s else top) top) s := by
  induction rest generalizing top with
  | nil =>
    intro s hs
    rw [List.mem_singleton.mp hs]
    exact Outranks.refl b top
  | cons next rest ih =>
    obtain ⟨htop, hrest⟩ := List.pairwise_cons.mp h
    intro s hs
    rw [List.foldl_cons]
    split
    · -- `next` takes over and outranks what it replaces
      rename_i hlt
      have hnext := ih next hrest
      rcases List.mem_cons.mp hs with rfl | hs
      · exact (hnext next List.mem_cons_self).trans (Or.inl hlt)
      · exact hnext s hs
    · rename_i hle
      have hkeep := ih top (List.pairwise_cons.mpr
        ⟨fun x hx => htop x (List.mem_cons_of_mem _ hx), (List.pairwise_cons.mp hrest).2⟩)
      rcases List.mem_cons.mp hs with rfl | hs
      · exact hkeep s List.mem_cons_self
      · rcases List.mem_cons.mp hs with rfl | hs
        · -- no longer path than that of `top`, and a higher slot
          have hlow : top < s := htop s List.mem_cons_self
          refine (hkeep top List.mem_cons_self).trans ?_
          rcases Nat.eq_or_lt_of_le (Nat.le_of_not_lt hle) with heq | hlt
          · exact Or.inr ⟨heq.symm, Nat.le_of_lt hlow⟩
          · exact Or.inl hlt
        · exact hkeep s (List.mem_cons_of_mem _ hs)

theorem best_outranks {b : Board} {slots : List Slot} (hsorted : slots.Pairwise (· < ·)) {top : Slot}
    (h : b.best slots = some top) {s : Slot} (hs : s ∈ slots) : b.Outranks top s := by
  cases slots with
  | nil => cases hs
  | cons first rest =>
    cases h
    exact foldl_outranks rest first hsorted s hs

theorem pairsWith_of_portsFree {b : Board} (hpos : Positioned b.records) {primary s : Slot}
    (hne : s ≠ primary) (h : b.PortsFree primary s) : b.pairsWith primary s = true := by
  obtain ⟨p, r, hp, hr, hfree⟩ := h
  have hslot : r.slot ≠ primary := by rwa [hpos s r hr]
  simp [pairsWith, hp, hr, hslot, hfree]

/-- **What a pick does to a candidate that it leaves.** The first of the pick outranks it. If the ports would
have left room for it beside the first, it competed for the second place and lost. -/
theorem choose_outranks {b : Board} (hpos : Positioned b.records) {candidates : List Slot}
    (hsorted : candidates.Pairwise (· < ·)) {s : Slot} (hs : s ∈ candidates)
    (hleft : s ∉ b.choose candidates) :
    ∃ primary, b.Outranks primary s ∧
      (¬ b.PortsFree primary s ∧ (∃ rest, b.choose candidates = primary :: rest) ∨
        ∃ second, b.choose candidates = [primary, second] ∧ b.PortsFree primary second ∧
          b.Outranks second s) := by
  cases hbest : b.best candidates with
  | none =>
    rw [best_eq_none_iff.mp hbest] at hs
    cases hs
  | some primary =>
    have hchoose : b.choose candidates =
        primary :: (b.best (candidates.filter (b.pairsWith primary))).toList := by
      unfold choose
      rw [hbest]
    refine ⟨primary, best_outranks hsorted hbest hs, ?_⟩
    by_cases hfree : b.PortsFree primary s
    · -- the slot competes for the second place, so that place is taken
      have hne : s ≠ primary := by
        rintro rfl
        rw [hchoose] at hleft
        exact hleft List.mem_cons_self
      have hmem : s ∈ candidates.filter (b.pairsWith primary) :=
        List.mem_filter.mpr ⟨hs, pairsWith_of_portsFree hpos hne hfree⟩
      cases hsecond : b.best (candidates.filter (b.pairsWith primary)) with
      | none =>
        rw [best_eq_none_iff.mp hsecond] at hmem
        cases hmem
      | some second =>
        rw [hsecond] at hchoose
        have hpair := (List.mem_filter.mp (best_mem hsecond)).2
        exact Or.inr ⟨second, hchoose, portsFree_of_pairsWith hpair,
          best_outranks (hsorted.filter _) hsecond hmem⟩
    · exact Or.inl ⟨hfree, _, hchoose⟩

/-! ## Slots that wait

A slot waits in a cycle if it could have issued in it; that it was passed over says what issued instead. Both
are about one cycle that is over, seen from any later board, so the invariant has two parts to it: what has been
said of old cycles stays true, and for the cycle of this step it is true because of the pick. -/

/-- The slot could issue in a cycle that is over, and did not. -/
structure Waits (g : Graph) (b : Board) (cycle : Nat) (s : Slot) : Prop where
  lt_size : s < g.size
  inner : b.isDelimiter s = false
  ended : cycle < b.time
  due : b.readyTime s ≤ cycle
  preds_before : ∀ d ∈ g.predsOf s, d.slot ∈ b.order ∧ b.cycleOf d.slot < cycle
  not_yet : s ∈ b.order → cycle < b.cycleOf s

/-- What the cycle has issued instead. -/
def PassedOver (b : Board) (cycle : Nat) (s : Slot) : Prop :=
  ∃ front primary rest, b.order = front ++ primary :: rest ∧
    (∀ q ∈ front, b.cycleOf q < cycle) ∧ b.cycleOf primary = cycle ∧ b.Outranks primary s ∧
    (¬ b.PortsFree primary s ∨
      ∃ second rest', rest = second :: rest' ∧ b.cycleOf second = cycle ∧
        b.PortsFree primary second ∧ b.Outranks second s)

/-- Whatever waits has been passed over. -/
def Greedy (g : Graph) (b : Board) : Prop :=
  ∀ cycle s, b.Waits g cycle s → b.PassedOver cycle s

theorem greedy_of_start {g : Graph} {records : Array Record} {b : Board}
    (hb : Board.start g records = .ok b) : b.Greedy g := by
  intro cycle s hw
  have hover := hw.ended
  rw [(nothing_issued_of_start hb).2] at hover
  exact absurd hover (Nat.not_lt_zero cycle)

/-- Scheduling does not change longest paths, and so not the ranking either. -/
theorem priority_of_sameBlock {b b' : Board} (h : SameBlock b.records b'.records) (s : Slot) :
    b'.priority s = b.priority s :=
  congrArg (Option.getD · 0) (h.map_eq (fun r => r.priority) (fun _ => rfl) s)

section Step

variable {g : Graph} {b b' : Board} {time cycle : Nat} {slots : List Slot} {s : Slot}

theorem outranks_of_sameBlock (h : SameBlock b.records b'.records) {p s : Slot} :
    b'.Outranks p s ↔ b.Outranks p s := by
  unfold Outranks
  rw [priority_of_sameBlock h, priority_of_sameBlock h]

theorem portsFree_of_sameBlock (h : SameBlock b.records b'.records) {p s : Slot} :
    b'.PortsFree p s ↔ b.PortsFree p s :=
  ⟨PortsFree.of_sameBlock fun i => (h i).symm, PortsFree.of_sameBlock h⟩

variable (h : Sound g b) (hc : b.Chosen time slots) (hi : Issued g b time slots b')
include h hc hi

/-- Later cycles change nothing about a cycle that is over: the order only grows at its end, and issue times,
ranks and ports stay. -/
theorem PassedOver.kept (hp : b.PassedOver cycle s) : b'.PassedOver cycle s := by
  obtain ⟨front, primary, rest, horder, hfront, hcycle, hrank, hroom⟩ := hp
  have hkept : ∀ {q}, q ∈ front ++ primary :: rest → b'.cycleOf q = b.cycleOf q := by
    intro q hq
    rw [← horder] at hq
    exact h.cycleOf_kept hc hi hq
  have hprimary : primary ∈ front ++ primary :: rest :=
    List.mem_append_right _ List.mem_cons_self
  refine ⟨front, primary, rest ++ slots, ?_, ?_, ?_, (outranks_of_sameBlock hi.given_eq).mpr hrank, ?_⟩
  · rw [hi.order_eq, horder, List.append_assoc, List.cons_append]
  · intro q hq
    rw [hkept (List.mem_append_left _ hq)]
    exact hfront q hq
  · rw [hkept hprimary]
    exact hcycle
  · rcases hroom with hbusy | ⟨second, rest', rfl, hsecond, hfree, hrank'⟩
    · exact Or.inl (mt (portsFree_of_sameBlock hi.given_eq).mp hbusy)
    · refine Or.inr ⟨second, rest' ++ slots, rfl, ?_, (portsFree_of_sameBlock hi.given_eq).mpr hfree,
        (outranks_of_sameBlock hi.given_eq).mpr hrank'⟩
      rw [hkept (List.mem_append_right _ (List.mem_cons_of_mem _ List.mem_cons_self))]
      exact hsecond

/-- A predecessor that issued before a cycle that is now over had issued before this step, and so the slot
was ready for it. -/
theorem Waits.before (hw : b'.Waits g cycle s) :
    (∀ d ∈ g.predsOf s, d.slot ∈ b.order ∧ b.cycleOf d.slot < cycle) ∧
      (s ∈ b.order ∨ s ∈ b.ready) ∧ b.readyTime s ≤ cycle := by
  have hover : cycle < time + 1 := by
    have := hw.ended
    rwa [hi.time_eq] at this
  -- what issues in this step issues too late to be before the cycle
  have hpreds : ∀ d ∈ g.predsOf s, d.slot ∈ b.order ∧ b.cycleOf d.slot < cycle := by
    intro d hd
    obtain ⟨hmem, hlt⟩ := hw.preds_before d hd
    rcases hi.mem_order_iff.mp hmem with hold | hnew
    · rw [h.cycleOf_kept hc hi hold] at hlt
      exact ⟨hold, hlt⟩
    · rw [h.cycleOf_chosen hc hi hnew] at hlt
      omega
  have hready : s ∈ b.order ∨ s ∈ b.ready := by
    by_cases hs : s ∈ b.order
    · exact Or.inl hs
    · exact Or.inr ((h.mem_ready_iff s).mpr ⟨hw.lt_size, hs, fun d hd => (hpreds d hd).1⟩)
  refine ⟨hpreds, hready, ?_⟩
  rw [← hi.readyTime_kept hready]
  exact hw.due

/-- The wait was over before this step. -/
theorem Waits.of_lt (hw : b'.Waits g cycle s) (hlt : cycle < b.time) : b.Waits g cycle s := by
  obtain ⟨hpreds, _, hdue⟩ := hw.before h hc hi
  refine ⟨hw.lt_size, ?_, hlt, hdue, hpreds, ?_⟩
  · rw [← isDelimiter_of_sameBlock hi.given_eq]
    exact hw.inner
  · intro hs
    rw [← h.cycleOf_kept hc hi hs]
    exact hw.not_yet (hi.mem_order_iff.mpr (Or.inl hs))

/-- Otherwise the slot stands ready when the step begins, and the step does not issue it. -/
theorem Waits.mem_readyInner (hw : b'.Waits g cycle s) (hge : b.time ≤ cycle) :
    s ∈ b.readyInner ∧ (cycle = time → s ∉ slots) := by
  obtain ⟨_, hready, _⟩ := hw.before h hc hi
  have hs : s ∉ b.order := by
    intro hs
    have hlt := hw.not_yet (hi.mem_order_iff.mpr (Or.inl hs))
    rw [h.cycleOf_kept hc hi hs] at hlt
    have := h.past s hs
    omega
  refine ⟨mem_readyInner_iff.mpr ⟨hready.resolve_left hs, ?_⟩, ?_⟩
  · rw [← isDelimiter_of_sameBlock hi.given_eq]
    exact hw.inner
  · intro hnow hmem
    have hlt := hw.not_yet (hi.mem_order_iff.mpr (Or.inr hmem))
    rw [h.cycleOf_chosen hc hi hmem] at hlt
    omega

omit hc in
/-- **The step.** A wait that ends with this step is a wait for its cycle, since no earlier cycle was
skipped, and there the slot stood among the candidates. -/
theorem Greedy.step {candidates : List Slot} (hg : b.Greedy g) (ho : b.Offer time candidates)
    (hslots : slots = b.choose candidates) : b'.Greedy g := by
  subst hslots
  have hc := chosen_of_offer h.positioned ho
  intro cycle s hw
  -- a wait that was over before this step has been dealt with
  by_cases hlt : cycle < b.time
  · exact (hg cycle s (hw.of_lt h hc hi hlt)).kept h hc hi
  obtain ⟨_, _, hdue⟩ := hw.before h hc hi
  obtain ⟨hinner, hleft⟩ := hw.mem_readyInner h hc hi (Nat.le_of_not_lt hlt)
  -- the clock does not pass a slot that is due
  have hnow : cycle = time := by
    have hnot_past := ho.not_past s hinner
    have hover := hw.ended
    rw [hi.time_eq] at hover
    omega
  subst hnow
  -- an inner slot is ready, so the offer is not a delimiter
  have hcandidates : candidates = b.candidatesAt cycle := by
    rcases ho.inner_or_delimiter with hall | ⟨hnil, _⟩
    · exact hall
    · rw [hnil] at hinner
      cases hinner
  have hsorted : candidates.Pairwise (· < ·) := by
    rw [hcandidates]
    exact (h.ready_sorted.filter _).filter _
  have hmem : s ∈ candidates := by
    rw [hcandidates]
    exact mem_candidatesAt_iff.mpr ⟨hinner, hdue⟩
  obtain ⟨primary, hrank, hroom⟩ := choose_outranks h.positioned hsorted hmem (hleft rfl)
  have hpast : ∀ q ∈ b.order, b'.cycleOf q < cycle := by
    intro q hq
    rw [h.cycleOf_kept hc hi hq]
    exact Nat.lt_of_lt_of_le (h.past q hq) ho.time_le
  have hcycle : ∀ q ∈ b.choose candidates, b'.cycleOf q = cycle := fun q hq => h.cycleOf_chosen hc hi hq
  have hrank' := (outranks_of_sameBlock hi.given_eq).mpr hrank
  rcases hroom with ⟨hbusy, rest, hchoose⟩ | ⟨second, hchoose, hfree, hsecond⟩
  · rw [hchoose] at hcycle
    refine ⟨b.order, primary, rest, ?_, hpast, hcycle _ List.mem_cons_self, hrank', Or.inl ?_⟩
    · rw [hi.order_eq, hchoose]
    · exact mt (portsFree_of_sameBlock hi.given_eq).mp hbusy
  · rw [hchoose] at hcycle
    refine ⟨b.order, primary, [second], ?_, hpast, hcycle _ List.mem_cons_self, hrank', Or.inr ?_⟩
    · rw [hi.order_eq, hchoose]
    · exact ⟨second, [], rfl, hcycle _ (List.mem_cons_of_mem _ List.mem_cons_self),
        (portsFree_of_sameBlock hi.given_eq).mpr hfree, (outranks_of_sameBlock hi.given_eq).mpr hsecond⟩

end Step

end Board

open DualIssue.Board

/-! ## The returned records and order

What holds of the finished board is read off the records and the order that are returned, since these are all
that a caller sees. -/

/-- The record is the one in its slot and issues in this cycle. -/
structure Record.IssuesAt (records : Array Record) (cycle : Nat) (r : Record) : Prop where
  mem : records[r.slot]? = some r
  time : r.issueTime = some cycle

/-- Why a record did not issue in a cycle: the first record of the cycle is no less urgent, and it takes the
port that the record needs, or the place beside it went to another record that is no less urgent. -/
def Record.PassedOver (records : Array Record) (order : List Slot) (cycle : Nat) (r : Record) : Prop :=
  ∃ (p : Record) (front rest : List Slot), order = front ++ p.slot :: rest ∧ p.IssuesAt records cycle ∧
    (∀ s ∈ front, ∃ q earlier, records[s]? = some q ∧ q.issueTime = some earlier ∧ earlier < cycle) ∧
    p.Outranks r ∧
    (p.port.conflictsWith r.port = true ∨
      ∃ (s : Record) (rest' : List Slot), rest = s.slot :: rest' ∧ s.IssuesAt records cycle ∧
        p.port.conflictsWith s.port = false ∧ s.Outranks r)

section Finished

variable {g : Graph} {records final : Array Record} {order : List Slot} {b : Board}

/-- Every slot of the order has a record with its issue time. -/
theorem Board.Finished.exists_record (h : Finished g records final order b) {s : Slot} (hs : s ∈ b.order) :
    ∃ r, final[s]? = some r ∧ r.slot = s ∧ r.IssuesAt final (b.cycleOf s) := by
  have hlt : s < final.size := by
    rw [← h.records_eq, h.sound.size_eq]
    exact h.sound.order_lt s hs
  have hr := Array.getElem?_eq_getElem hlt
  have hslot : final[s].slot = s := h.sound.positioned s _ (by rw [h.records_eq]; exact hr)
  refine ⟨final[s], hr, hslot, ?_, (h.issueTime_eq hr).2⟩
  rw [hslot]
  exact hr

/-- The ranking of slots on the board is that of their records. -/
theorem Board.Finished.outranks_iff (h : Finished g records final order b) {p r : Record}
    (hp : final[p.slot]? = some p) (hr : final[r.slot]? = some r) :
    b.Outranks p.slot r.slot ↔ p.Outranks r := by
  unfold Board.Outranks Record.Outranks Board.priority
  rw [h.records_eq, hp, hr]
  rfl

/-- A slot that was passed over on the finished board, said of its record. -/
theorem Board.Finished.passedOver (h : Finished g records final order b) {cycle : Nat} {r : Record}
    (hr : final[r.slot]? = some r) (hp : b.PassedOver cycle r.slot) : r.PassedOver final order cycle := by
  obtain ⟨front, primary, rest, horder, hfront, rfl, hrank, hroom⟩ := hp
  have hmem : ∀ q ∈ front ++ primary :: rest, q ∈ b.order := fun q hq => horder ▸ hq
  obtain ⟨p, _, rfl, hissues⟩ := h.exists_record (hmem primary (by simp))
  refine ⟨p, front, rest, by rw [← h.order_eq, horder], hissues, ?_, (h.outranks_iff hissues.mem hr).mp hrank, ?_⟩
  · intro q hq
    obtain ⟨record, hrecord, _, hcycle⟩ := h.exists_record (hmem q (List.mem_append_left _ hq))
    exact ⟨record, _, hrecord, hcycle.time, hfront q hq⟩
  · -- no room beside the primary slot, or a second slot that goes first
    rcases hroom with hbusy | ⟨second, rest', rfl, hsecond, hfree, hrank'⟩
    · left
      cases hconflict : p.port.conflictsWith r.port with
      | true => rfl
      | false =>
        rw [← h.records_eq] at hissues hr
        exact absurd ⟨p, r, hissues.mem, hr, hconflict⟩ hbusy
    · obtain ⟨s, _, rfl, hissues'⟩ := h.exists_record (hmem second (by simp))
      rw [hsecond] at hissues'
      obtain ⟨q, q', hq, hq', hfree⟩ := hfree
      rw [h.records_eq] at hq hq'
      cases hissues.mem.symm.trans hq
      cases hissues'.mem.symm.trans hq'
      exact Or.inr ⟨s, rest', rfl, hissues', hfree, (h.outranks_iff hissues'.mem hr).mp hrank'⟩

end Finished

/-- **List scheduling wastes no cycle.** If an order is returned, with the given records and times written in,
take any record that is no delimiter and any cycle before the one in which it issues, such that its ready time
has come and all its predecessors have issued before. Then the record was passed over in that cycle. The
invariant `Greedy` goes through the run by `finished_of_listSchedule`; the hypotheses say that the slot waits on
the finished board. -/
theorem listSchedule_greedy {g₀ g : Graph} {records final : Array Record} {order : List Slot}
    (hpos : Positioned records) (hsize : g₀.size = records.size) (hinv : g₀.invert = .ok g)
    (h : listSchedule g records = (final, .ok order)) {s : Nat} {r : Record} {cycle time : Nat}
    (hr : final[s]? = some r) (hinner : r.inst.isDelimiter = false) (htime : r.issueTime = some time)
    (hready : r.readyTime ≤ cycle) (hcycle : cycle < time)
    (hpreds : ∀ d ∈ g.predsOf s, ∃ p earlier, final[d.slot]? = some p ∧
      p.issueTime = some earlier ∧ earlier < cycle) :
    SameBlock records final ∧ r.PassedOver final order cycle := by
  have hg := inverted_of_invert hinv
  have hsize' : records.size = g.size := by rw [size_of_invert hinv, hsize]
  obtain ⟨b, hb, hgreedy⟩ := finished_of_listSchedule (P := Greedy g) hg hsize' hpos
    (fun _ => greedy_of_start)
    (fun _ _ _ _ hs _ hgreedy hoffer hi => hgreedy.step hs hi hoffer rfl) h
  have hslot : r.slot = s := hb.sound.positioned s r (by rw [hb.records_eq]; exact hr)
  subst hslot
  obtain ⟨hmem, hissue⟩ := hb.issueTime_eq hr
  have hlater : cycle < b.cycleOf r.slot := by
    rw [htime] at hissue
    rw [← Option.some.inj hissue]
    exact hcycle
  -- the hypotheses about records say that the slot could have issued in the cycle but did not
  refine ⟨hb.sameBlock, hb.passedOver hr (hgreedy cycle r.slot ⟨?_, ?_, ?_, ?_, ?_, fun _ => hlater⟩)⟩
  · exact hb.sound.order_lt _ hmem
  · unfold Board.isDelimiter
    rw [hb.records_eq, hr]
    exact hinner
  · exact Nat.lt_trans hlater (hb.sound.past _ hmem)
  · unfold Board.readyTime
    rw [hb.records_eq, hr]
    exact hready
  · intro d hd
    obtain ⟨p, earlier, hp, hearlier, hlt⟩ := hpreds d hd
    obtain ⟨hdmem, hdissue⟩ := hb.issueTime_eq hp
    rw [hearlier] at hdissue
    rw [← Option.some.inj hdissue]
    exact ⟨hdmem, hlt⟩

/-- Three moves compete for the first cycle, of which the first in program order has the shortest path. The last move
waits for the second and needs both ports. -/
def contendingRecords : Array Record :=
  #[{ slot := 0, inst := { mnemonic := .mov }, port := .port0, latency := 1, longestPath := some 1 },
    { slot := 1, inst := { mnemonic := .mov }, port := .either, latency := 1, longestPath := some 3 },
    { slot := 2, inst := { mnemonic := .mov }, port := .port1, latency := 1, longestPath := some 2 },
    { slot := 3, inst := { mnemonic := .mov }, port := .both, latency := 1, longestPath := some 1 },
    { slot := 4, inst := { mnemonic := .ret }, port := .either, latency := 1 }]

def contendingGraph : Graph :=
  Graph.empty.addNode.addNode.addNode.addNode.addNode.insertEdges
    [{ source := 1, target := 3, hazard := .raw }]

/-- The first move could issue in the first cycle, but both places go to higher slots with longer paths. The fourth is
ready in the second cycle, where the first has as long a path and a lower slot and leaves no room for it. -/
theorem listSchedule_greedy_on_contendingRecords :
    Positioned contendingRecords ∧ contendingGraph.size = contendingRecords.size ∧
      ∃ g final, contendingGraph.invert = .ok g ∧
        listSchedule g contendingRecords = (final, .ok [1, 2, 0, 3, 4]) ∧
        final.toList.map (·.issueTime) = [some 1, some 0, some 0, some 2, some 3] ∧
        (∃ r, final[0]? = some r ∧ r.PassedOver final [1, 2, 0, 3, 4] 0) ∧
        ∃ r, final[3]? = some r ∧ r.PassedOver final [1, 2, 0, 3, 4] 1 := by
  have hpos : Positioned contendingRecords := by decide
  have hsize : contendingGraph.size = contendingRecords.size := rfl
  refine ⟨hpos, hsize, _, _, rfl, rfl, rfl, ⟨_, rfl, ?_⟩, ⟨_, rfl, ?_⟩⟩
  · refine (listSchedule_greedy (s := 0) hpos hsize rfl rfl rfl rfl rfl (Nat.zero_le _) Nat.zero_lt_one ?_).2
    exact fun d hd => nomatch hd
  · refine (listSchedule_greedy (s := 3) hpos hsize rfl rfl rfl rfl rfl (Nat.le_refl 1)
      (Nat.lt_succ_self 1) ?_).2
    intro d hd
    have hd : d ∈ [({ hazard := .raw, slot := 1 } : Dependency)] := hd
    rw [List.mem_singleton.mp hd]
    exact ⟨_, 0, rfl, rfl, Nat.zero_lt_one⟩

end DualIssue
