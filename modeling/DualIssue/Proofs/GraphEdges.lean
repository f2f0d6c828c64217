import DualIssue.Graph.Basic
import DualIssue.Proofs.Checked
import Mathlib.Logic.Relation

/-!
# Edges of a dependence graph

What a graph says is which slots depend on which. This module reads that off the predecessor lists,
follows it through the two ways in which a graph changes while a block is recorded, and shows that
inversion gives successor lists with the same edges.

* **`Depends`**: there is an edge between two slots. **`Reaches`**: there is a path, maybe of no edge.
* **`addEdges_eq_ok`**: edges into existing slots can be added, and `depends_insertEdges_iff` says what
  the graph then holds.
* **`Inverted`**: the successor lists list the edges that the predecessor lists do, and all ends exist.
  `inverted_of_invert` gets it from a successful inversion.
* **`Forward`**: every edge leads to a later slot. Such a graph has no cycle.
-/

namespace DualIssue

namespace Graph

/-- There is an edge from `source` to `target`. -/
def Depends (g : Graph) (source target : Slot) : Prop :=
  ∃ d ∈ g.predsOf target, d.slot = source

instance (g : Graph) (source target : Slot) : Decidable (g.Depends source target) :=
  inferInstanceAs (Decidable (∃ d ∈ g.predsOf target, d.slot = source))

/-- There is a path from one slot to another; every slot reaches itself. -/
def Reaches (g : Graph) : Slot → Slot → Prop := Relation.ReflTransGen g.Depends

theorem predsOf_of_size_le {g : Graph} {slot : Slot} (h : g.size ≤ slot) : g.predsOf slot = [] := by
  have hout : ¬ slot < g.preds.size := Nat.not_lt.mpr h
  simp [predsOf, Array.getD_eq_getD_getElem?, hout]

/-- The target of an edge exists. Of sources nothing is known until the graph has been inverted. -/
theorem Depends.target_lt {g : Graph} {source target : Slot} (h : g.Depends source target) :
    target < g.size := by
  obtain ⟨d, hd, _⟩ := h
  rcases Nat.lt_or_ge target g.size with hlt | hge
  · exact hlt
  · rw [predsOf_of_size_le hge] at hd
    cases hd

theorem Reaches.refl (g : Graph) (slot : Slot) : g.Reaches slot slot := Relation.ReflTransGen.refl

theorem Reaches.trans {g : Graph} {a b c : Slot} (hab : g.Reaches a b) (hbc : g.Reaches b c) :
    g.Reaches a c := Relation.ReflTransGen.trans hab hbc

theorem Depends.reaches {g : Graph} {a b : Slot} (h : g.Depends a b) : g.Reaches a b :=
  Relation.ReflTransGen.single h

/-- Paths stay paths in a graph with more edges. -/
theorem Reaches.mono {g g' : Graph} (hgg' : ∀ a b, g.Depends a b → g'.Depends a b) {a b : Slot}
    (h : g.Reaches a b) : g'.Reaches a b := Relation.ReflTransGen.mono hgg' a b h

/-! ## Adding edges

Edges are added at the end of the predecessor list of their target, which has to exist. As a plain function this
is `insertEdges`, and the lemmas say what it does to lists, to the relation and to the listed edges. -/

/-- The graph with edges added from the first to the last. -/
def insertEdges (g : Graph) (edges : List Edge) : Graph := edges.foldl insertEdge g

@[simp] theorem insertEdges_nil (g : Graph) : g.insertEdges [] = g := rfl

theorem insertEdges_cons (g : Graph) (e : Edge) (edges : List Edge) :
    g.insertEdges (e :: edges) = (g.insertEdge e).insertEdges edges := rfl

@[simp] theorem size_insertEdges (g : Graph) (edges : List Edge) :
    (g.insertEdges edges).size = g.size := by
  induction edges generalizing g with
  | nil => rfl
  | cons e edges ih => rw [insertEdges_cons, ih, size_insertEdge]

/-- Edges into existing slots can be added. Adding one does not change the size of the graph, so the later ones
still have their targets. -/
theorem addEdges_eq_ok {g : Graph} {edges : List Edge} (h : ∀ e ∈ edges, e.target < g.size) :
    g.addEdges edges = .ok (g.insertEdges edges) := by
  have hstep : ∀ b : Graph, b.size = g.size → ∀ e ∈ edges,
      b.addEdge e = .ok (b.insertEdge e) ∧ (b.insertEdge e).size = g.size := by
    intro b hb e he
    constructor
    · rw [addEdge, if_pos (by rw [hb]; exact h e he)]
    · rw [size_insertEdge, hb]
  exact (foldlM_ok_of_forall (P := fun b => b.size = g.size) rfl hstep).1

/-- The list of a slot grows by the new edges into it, in their order. Induction on the edges. -/
theorem predsOf_insertEdges {g : Graph} {edges : List Edge} (h : ∀ e ∈ edges, e.target < g.size)
    (slot : Slot) :
    (g.insertEdges edges).predsOf slot =
      g.predsOf slot ++ (edges.filter (·.target = slot)).map Edge.incoming := by
  induction edges generalizing g with
  | nil => simp
  | cons e edges ih =>
    have he : e.target < g.size := h e List.mem_cons_self
    have hrest : ∀ x ∈ edges, x.target < (g.insertEdge e).size := by
      intro x hx
      rw [size_insertEdge]
      exact h x (List.mem_cons_of_mem _ hx)
    rw [insertEdges_cons, ih hrest, predsOf_insertEdge]
    by_cases ht : e.target = slot
    · rw [if_pos ⟨ht.symm, he⟩, List.filter_cons_of_pos (by simpa using ht)]
      simp
    · rw [if_neg (fun hc => ht hc.1.symm), List.filter_cons_of_neg (by simpa using ht)]

/-- After edges have been added, the graph holds the old ones and the new ones. -/
theorem depends_insertEdges_iff {g : Graph} {edges : List Edge} (h : ∀ e ∈ edges, e.target < g.size)
    {source target : Slot} :
    (g.insertEdges edges).Depends source target ↔
      g.Depends source target ∨ ∃ e ∈ edges, e.source = source ∧ e.target = target := by
  unfold Depends
  rw [predsOf_insertEdges h]
  constructor
  · rintro ⟨d, hd, hslot⟩
    rcases List.mem_append.mp hd with hd | hd
    · exact Or.inl ⟨d, hd, hslot⟩
    · obtain ⟨e, he, rfl⟩ := List.mem_map.mp hd
      obtain ⟨hmem, ht⟩ := List.mem_filter.mp he
      exact Or.inr ⟨e, hmem, hslot, by simpa using ht⟩
  · rintro (⟨d, hd, hslot⟩ | ⟨e, he, hs, ht⟩)
    · exact ⟨d, List.mem_append_left _ hd, hslot⟩
    · refine ⟨e.incoming, List.mem_append_right _ (List.mem_map_of_mem ?_), hs⟩
      exact List.mem_filter.mpr ⟨he, by simpa using ht⟩

@[simp] theorem depends_addNode {g : Graph} {source target : Slot} :
    g.addNode.Depends source target ↔ g.Depends source target := by
  unfold Depends
  rw [predsOf_addNode]

/-! ## Inversion

Inversion checks that all sources exist and then lists every edge a second time, at its source. A graph with
both kinds of lists is `Inverted`; everything that walks along edges later asks for this only. -/

/-- The edges of a graph are the entries of its predecessor lists, each with the slot of its list as target. -/
theorem mem_edges_iff {g : Graph} {e : Edge} :
    e ∈ g.edges ↔ ∃ d ∈ g.predsOf e.target, d.into e.target = e := by
  unfold edges
  constructor
  · intro he
    obtain ⟨target, _, hmem⟩ := List.mem_flatMap.mp he
    obtain ⟨d, hd, rfl⟩ := List.mem_map.mp hmem
    exact ⟨d, hd, rfl⟩
  · rintro ⟨d, hd, hde⟩
    have hlt : e.target < g.size := Depends.target_lt ⟨d, hd, rfl⟩
    refine List.mem_flatMap.mpr ⟨e.target, List.mem_range.mpr hlt, ?_⟩
    exact List.mem_map.mpr ⟨d, hd, hde⟩

theorem mem_edges_iff_incoming {g : Graph} {e : Edge} : e ∈ g.edges ↔ e.incoming ∈ g.predsOf e.target := by
  rw [mem_edges_iff]
  constructor
  · rintro ⟨d, hd, hde⟩
    rw [← hde]
    exact hd
  · intro h
    exact ⟨e.incoming, h, rfl⟩

theorem depends_of_mem_edges {g : Graph} {e : Edge} (h : e ∈ g.edges) :
    g.Depends e.source e.target :=
  ⟨e.incoming, mem_edges_iff_incoming.mp h, rfl⟩

theorem mem_edges_addNode {g : Graph} {e : Edge} : e ∈ g.addNode.edges ↔ e ∈ g.edges := by
  rw [mem_edges_iff_incoming, mem_edges_iff_incoming, predsOf_addNode]

/-- After edges have been added, the graph lists the old ones and the new ones, with their labels. An edge is
determined by its target and by the entry that it has there. -/
theorem mem_edges_insertEdges {g : Graph} {edges : List Edge} (h : ∀ e ∈ edges, e.target < g.size)
    {e : Edge} : e ∈ (g.insertEdges edges).edges ↔ e ∈ g.edges ∨ e ∈ edges := by
  rw [mem_edges_iff_incoming, mem_edges_iff_incoming, predsOf_insertEdges h, List.mem_append]
  refine or_congr_right ?_
  rw [List.mem_map]
  constructor
  · rintro ⟨e', he', heq⟩
    obtain ⟨hmem, htarget⟩ := List.mem_filter.mp he'
    -- label and source are in the entry, the target is that of the list
    have hsame : e' = e := by
      have htarget : e'.target = e.target := by simpa using htarget
      cases e'
      cases e
      simp_all [Edge.incoming]
    exact hsame ▸ hmem
  · intro he
    exact ⟨e, List.mem_filter.mpr ⟨he, by simp⟩, rfl⟩

/-- Successor lists that list the same edges as the predecessor lists, with the same labels and all
between existing slots. -/
structure Inverted (g : Graph) : Prop where
  source_lt : ∀ {source target : Slot}, g.Depends source target → source < g.size
  succs_iff : ∀ {source target : Slot},
    (∃ d ∈ g.succsOf source, d.slot = target) ↔ g.Depends source target
  succs_label : ∀ {source : Slot} {d : Dependency}, d ∈ g.succsOf source →
    ∃ p ∈ g.predsOf d.slot, p.slot = source ∧ p.toEdgeLabel = d.toEdgeLabel

/-- What a slot lists as outgoing are the entries elsewhere that name it as their source, with the same label. -/
theorem mem_outgoingOf_iff {g : Graph} {source : Slot} {d : Dependency} :
    d ∈ outgoingOf g.edges source ↔
      ∃ p ∈ g.predsOf d.slot, p.slot = source ∧ p.toEdgeLabel = d.toEdgeLabel := by
  unfold outgoingOf
  constructor
  · intro hd
    obtain ⟨e, he, rfl⟩ := List.mem_map.mp hd
    obtain ⟨hmem, hs⟩ := List.mem_filter.mp he
    obtain ⟨p, hp, hpe⟩ := mem_edges_iff.mp hmem
    have hs : e.source = source := by simpa using hs
    rw [← hpe] at hs
    refine ⟨p, hp, hs, ?_⟩
    rw [← hpe]
    rfl
  · rintro ⟨p, hp, hs, hl⟩
    refine List.mem_map.mpr ⟨p.into d.slot, ?_, ?_⟩
    · exact List.mem_filter.mpr ⟨mem_edges_iff.mpr ⟨p, hp, rfl⟩, decide_eq_true hs⟩
    · show ({ toEdgeLabel := p.toEdgeLabel, slot := d.slot } : Dependency) = d
      rw [hl]

/-- What a successful inversion returns, and what it has checked. -/
theorem invert_eq_ok_iff {g g' : Graph} :
    g.invert = .ok g' ↔
      (∀ source target, g.Depends source target → source < g.size) ∧
        g' = { g with succs := ((List.range g.size).map (outgoingOf g.edges)).toArray } := by
  -- the check over all edges, said of the relation
  have hall : g.edges.all (fun e => decide (e.source < g.size)) = true ↔
      ∀ source target, g.Depends source target → source < g.size := by
    rw [List.all_eq_true]
    constructor
    · rintro h source target ⟨d, hd, rfl⟩
      exact of_decide_eq_true (h (d.into target) (mem_edges_iff.mpr ⟨d, hd, rfl⟩))
    · intro h e he
      obtain ⟨d, hd, hde⟩ := mem_edges_iff.mp he
      rw [← hde]
      exact decide_eq_true (h d.slot e.target ⟨d, hd, rfl⟩)
  unfold invert
  by_cases h : ∀ source target, g.Depends source target → source < g.size
  · simp only [hall.mpr h, if_true]
    constructor
    · intro hg
      cases hg
      exact ⟨h, rfl⟩
    · rintro ⟨_, rfl⟩
      rfl
  · simp only [mt hall.mp h]
    constructor
    · intro hg
      cases hg
    · exact fun hg => absurd hg.1 h

theorem exists_invert_eq_ok {g : Graph}
    (h : ∀ source target, g.Depends source target → source < g.size) : ∃ g', g.invert = .ok g' :=
  ⟨_, invert_eq_ok_iff.mpr ⟨h, rfl⟩⟩

/-- Inversion leaves the predecessor lists as they are, and with them all that follows. -/
theorem preds_of_invert {g g' : Graph} (h : g.invert = .ok g') : g'.preds = g.preds := by
  rw [(invert_eq_ok_iff.mp h).2]

theorem size_of_invert {g g' : Graph} (h : g.invert = .ok g') : g'.size = g.size := by
  unfold size
  rw [preds_of_invert h]

theorem predsOf_of_invert {g g' : Graph} (h : g.invert = .ok g') (slot : Slot) :
    g'.predsOf slot = g.predsOf slot := by
  unfold predsOf
  rw [preds_of_invert h]

theorem depends_of_invert {g g' : Graph} (h : g.invert = .ok g') {source target : Slot} :
    g'.Depends source target ↔ g.Depends source target := by
  unfold Depends
  rw [predsOf_of_invert h]

theorem mem_edges_of_invert {g g' : Graph} (h : g.invert = .ok g') {e : Edge} :
    e ∈ g'.edges ↔ e ∈ g.edges := by
  rw [mem_edges_iff_incoming, mem_edges_iff_incoming, predsOf_of_invert h]

theorem succsOf_of_invert {g g' : Graph} (h : g.invert = .ok g') (slot : Slot) :
    g'.succsOf slot = if slot < g.size then outgoingOf g.edges slot else [] := by
  rw [(invert_eq_ok_iff.mp h).2]
  unfold succsOf
  by_cases hlt : slot < g.size
  · simp [Array.getD_eq_getD_getElem?, hlt]
  · simp [Array.getD_eq_getD_getElem?, hlt]

/-- **A graph is inverted after inversion.** A successor comes with an entry in a predecessor list
(`mem_outgoingOf_iff`), and every entry is listed at its source, which exists because inversion has checked it. -/
theorem inverted_of_invert {g g' : Graph} (h : g.invert = .ok g') : g'.Inverted := by
  have hsource := (invert_eq_ok_iff.mp h).1
  have hlabel : ∀ {source : Slot} {d : Dependency}, d ∈ g'.succsOf source →
      ∃ p ∈ g'.predsOf d.slot, p.slot = source ∧ p.toEdgeLabel = d.toEdgeLabel := by
    intro source d hd
    rw [succsOf_of_invert h] at hd
    split at hd
    · rw [predsOf_of_invert h]
      exact mem_outgoingOf_iff.mp hd
    · cases hd
  refine ⟨?_, ?_, hlabel⟩
  -- targets exist because predecessor lists stop at the size; sources only because they were checked
  · intro source target hd
    rw [size_of_invert h]
    exact hsource source target ((depends_of_invert h).mp hd)
  · intro source target
    constructor
    · rintro ⟨d, hd, rfl⟩
      obtain ⟨p, hp, hs, _⟩ := hlabel hd
      exact ⟨p, hp, hs⟩
    · intro hd
      obtain ⟨p, hp, rfl⟩ := (depends_of_invert h).mp hd
      rw [succsOf_of_invert h, if_pos (hsource p.slot target ⟨p, hp, rfl⟩)]
      exact ⟨{ toEdgeLabel := p.toEdgeLabel, slot := target },
        mem_outgoingOf_iff.mpr ⟨p, hp, rfl, rfl⟩, rfl⟩

/-! ## Graphs whose edges lead forward

A recorded block has forward edges only, and then paths are ascending. -/

/-- Every edge leads from a slot to a later one. -/
def Forward (g : Graph) : Prop := ∀ source target, g.Depends source target → source < target

/-- A path leads to a later slot, or nowhere. Induction on the path. -/
theorem Forward.le_of_reaches {g : Graph} (hg : g.Forward) {a b : Slot} (h : g.Reaches a b) :
    a ≤ b := by
  induction h with
  | refl => exact Nat.le_refl a
  | tail _ hbc ih => exact Nat.le_of_lt (Nat.lt_of_le_of_lt ih (hg _ _ hbc))

/-- A slot lies on a directed cycle if a path of at least one edge leads back to it. -/
def OnCycle (g : Graph) (slot : Slot) : Prop := Relation.TransGen g.Depends slot slot

/-- **Forward edges make no cycle**: a path of at least one edge leads to a strictly later slot. -/
theorem Forward.not_onCycle {g : Graph} (hg : g.Forward) (slot : Slot) : ¬ g.OnCycle slot := by
  have hlt : ∀ a b, Relation.TransGen g.Depends a b → a < b := by
    intro a b h
    induction h with
    | single hab => exact hg _ _ hab
    | tail _ hbc ih => exact Nat.lt_trans ih (hg _ _ hbc)
  intro hc
  exact Nat.lt_irrefl slot (hlt slot slot hc)

end Graph

end DualIssue
