import DualIssue.Proofs.GraphEdges
import Mathlib.Data.List.Basic

/-!
# Inversion as transposition

Inversion turns lists of incoming edges into lists of outgoing ones. Nothing is lost or made up, parallel edges
included, and the order of each new list is fixed. This holds of every graph that can be built, however often it
was inverted on the way.

* **`labelsFor`**: what a list of dependences says about one slot, in the order of the list.
* **`labelsFor_outgoingOf`**: a source says about a target what the target says about the source.
* **`refill`**: inversion in place, by two nested loops over the old lists. It needs as many successor lists as
  predecessor lists, which is what **`Balanced`** says and every edit keeps.
* **`invert_transposes`**: inversion succeeds on every graph whose sources exist, and what it returns.
-/

namespace DualIssue

namespace Graph

/-! ## Both sides of an edge

The edges of a graph are listed target by target. Taking those of one source out of this list keeps their order,
and taking those of one target out of it gives back the predecessor list. Both selections commute, and this is
the symmetry. -/

/-- The labels of the entries that name a slot, in the order of the list. -/
def labelsFor (slot : Slot) (entries : List Dependency) : List EdgeLabel :=
  (entries.filter (·.slot = slot)).map (·.toEdgeLabel)

/-- An entry stands in a list as often as its label does among those for its slot. Induction on the list. -/
theorem count_eq_count_labelsFor (entries : List Dependency) (label : EdgeLabel) (slot : Slot) :
    entries.count ⟨label, slot⟩ = (labelsFor slot entries).count label := by
  induction entries with
  | nil => rfl
  | cons d entries ih =>
    obtain ⟨dlabel, dslot⟩ := d
    unfold labelsFor at ih ⊢
    by_cases hslot : dslot = slot
    · subst hslot
      simp [List.count_cons, ih]
    · simp [hslot, ih]

theorem flatMap_range_ite {α : Type} (l : List α) (slot n : Nat) :
    ((List.range n).flatMap fun i => if i = slot then l else []) = if slot < n then l else [] := by
  induction n with
  | zero => simp
  | succ n ih =>
    rw [List.range_succ, List.flatMap_append, ih, List.flatMap_singleton]
    rcases Nat.lt_trichotomy slot n with hlt | rfl | hgt
    · simp [hlt, Nat.ne_of_gt hlt, Nat.lt_succ_of_lt hlt]
    · simp
    · have hout : ¬ slot < n + 1 := by omega
      simp [Nat.lt_asymm hgt, Nat.ne_of_lt hgt, hout]

/-- The edges into a slot are its predecessor list. Of the lists that the edges are made of, all others are
filtered out. -/
theorem filter_target_edges (g : Graph) (target : Slot) :
    g.edges.filter (·.target = target) = (g.predsOf target).map (·.into target) := by
  have hblock : ∀ t, ((g.predsOf t).map (·.into t)).filter (·.target = target) =
      if t = target then (g.predsOf target).map (·.into target) else [] := by
    intro t
    split
    · rename_i ht
      subst ht
      exact List.filter_eq_self.mpr (by simp [Dependency.into])
    · rename_i ht
      exact List.filter_eq_nil_iff.mpr (by simp [Dependency.into, ht])
  unfold edges
  rw [List.filter_flatMap]
  simp only [hblock]
  rw [flatMap_range_ite]
  split
  · rfl
  · rename_i hout
    rw [predsOf_of_size_le (Nat.not_lt.mp hout), List.map_nil]

/-- Edges come by target. -/
theorem targets_edges_sorted (g : Graph) : g.edges.Pairwise fun e e' => e.target ≤ e'.target := by
  unfold edges
  -- within the list of one target, and from one list to a later one
  refine List.pairwise_flatMap.mpr ⟨?_, ?_⟩
  · intro target _
    exact List.pairwise_map.mpr (List.pairwise_of_forall fun _ _ => Nat.le_refl target)
  · refine List.pairwise_lt_range.imp ?_
    intro t t' hlt e he e' he'
    obtain ⟨d, _, rfl⟩ := List.mem_map.mp he
    obtain ⟨d', _, rfl⟩ := List.mem_map.mp he'
    exact Nat.le_of_lt hlt

/-- **What a source says about a target is what the target says about the source.** Both are the labels of the
edges between the two, in the order of the predecessor list. -/
theorem labelsFor_outgoingOf (g : Graph) (source target : Slot) :
    labelsFor target (outgoingOf g.edges source) = labelsFor source (g.predsOf target) := by
  unfold labelsFor outgoingOf
  calc ((((g.edges.filter (·.source = source)).map Edge.outgoing).filter (·.slot = target)).map
        (·.toEdgeLabel))
      = ((g.edges.filter (·.target = target)).filter (·.source = source)).map (·.toEdgeLabel) := by
        rw [List.filter_map, List.map_map, List.filter_comm]
        rfl
    _ = (((g.predsOf target).filter (·.slot = source)).map (·.into target)).map (·.toEdgeLabel) := by
        rw [filter_target_edges, List.filter_map]
        rfl
    _ = ((g.predsOf target).filter (·.slot = source)).map (·.toEdgeLabel) := by
        rw [List.map_map]
        rfl

/-- The list of a source goes by target, because the edges do. -/
theorem slots_outgoingOf_sorted (g : Graph) (source : Slot) :
    (outgoingOf g.edges source).Pairwise fun d d' => d.slot ≤ d'.slot :=
  List.pairwise_map.mpr (g.targets_edges_sorted.sublist List.filter_sublist)

/-! ## Inversion in place

The model builds new lists. Here the old ones are emptied and filled again, edge by edge, with a check at each.
Two nested loops over targets and predecessors are one loop over the edges (`refill_eq_foldlM_edges`), and what
this loop leaves in each list is said by an induction on the edges. -/

/-- The edge at the end of its source's list. -/
def listedAtSource (g : Graph) (e : Edge) : Graph :=
  { g with succs := g.succs.modify e.source (· ++ [e.outgoing]) }

/-- Lists an edge at its source, which must have a list. -/
def listAtSource (g : Graph) (e : Edge) : Except Fault Graph :=
  if e.source < g.succs.size then .ok (g.listedAtSource e) else .error .missingSlot

/-- The graph with all successor lists emptied. -/
def emptied (g : Graph) : Graph := { g with succs := g.succs.map fun _ => [] }

/-- Inversion in place: all successor lists are emptied, then the predecessor lists are gone through target by
target, and every edge is listed at its source. -/
def refill (g : Graph) : Except Fault Graph :=
  (List.range g.size).foldlM
    (fun filled target =>
      (g.predsOf target).foldlM (fun filled d => filled.listAtSource (d.into target)) filled)
    g.emptied

@[simp] theorem size_succs_listedAtSource (g : Graph) (e : Edge) :
    (g.listedAtSource e).succs.size = g.succs.size := by
  simp [listedAtSource]

theorem preds_foldl_listedAtSource (g : Graph) (edges : List Edge) :
    (edges.foldl listedAtSource g).preds = g.preds := by
  induction edges generalizing g with
  | nil => rfl
  | cons e edges ih => exact ih (g.listedAtSource e)

/-- **What the loops leave in a list**: what was there, and the edges out of its slot in the order in which the
loops come to them. Induction on the edges, for any lists to start from. -/
theorem getElem?_foldl_listedAtSource (g : Graph) (edges : List Edge) (slot : Slot) :
    (edges.foldl listedAtSource g).succs[slot]? = g.succs[slot]?.map (· ++ outgoingOf edges slot) := by
  induction edges generalizing g with
  | nil => simp [outgoingOf]
  | cons e edges ih =>
    rw [List.foldl_cons, ih, listedAtSource, Array.getElem?_modify]
    by_cases hs : e.source = slot
    · simp [hs, outgoingOf, Function.comp_def]
    · simp [hs, outgoingOf]

/-- The loops end with all edges listed, unless one of the sources has no list. Induction on the edges; listing
an edge does not change the number of lists. -/
theorem foldlM_listAtSource (g : Graph) (edges : List Edge) :
    edges.foldlM listAtSource g =
      if ∀ e ∈ edges, e.source < g.succs.size then .ok (edges.foldl listedAtSource g)
      else .error .missingSlot := by
  induction edges generalizing g with
  | nil => rfl
  | cons e edges ih =>
    rw [List.foldlM_cons, listAtSource]
    by_cases he : e.source < g.succs.size
    · rw [if_pos he]
      show edges.foldlM listAtSource (g.listedAtSource e) = _
      rw [ih, size_succs_listedAtSource]
      simp only [List.forall_mem_cons, he, true_and]
      rfl
    · rw [if_neg he, if_neg fun hall => he (hall e List.mem_cons_self)]
      rfl

theorem refill_eq_foldlM_edges (g : Graph) :
    g.refill = g.edges.foldlM listAtSource g.emptied := by
  unfold refill edges
  generalize g.emptied = filled
  induction List.range g.size generalizing filled with
  | nil => rfl
  | cons target targets ih =>
    rw [List.foldlM_cons, List.flatMap_cons, List.foldlM_append, List.foldlM_map]
    exact bind_congr ih

/-- There is a successor list for every slot, whatever stands in it. -/
def Balanced (g : Graph) : Prop := g.succs.size = g.size

/-- **Inversion can reuse the lists**: whatever stands in them, refilling them is inverting. Emptied lists are
filled with the outgoing edges of their slots, and these are what inversion lists. -/
theorem Balanced.refill_eq_invert {g : Graph} (h : g.Balanced) : g.refill = g.invert := by
  have hsize : g.succs.size = g.size := h
  have hemptied : g.emptied.succs.size = g.size := Array.size_map.trans hsize
  rw [refill_eq_foldlM_edges, foldlM_listAtSource, hemptied]
  unfold invert
  simp only [List.all_eq_true, decide_eq_true_eq]
  -- both ask the same of the sources, so only the lists remain to be compared
  split
  · have hsuccs : (g.edges.foldl listedAtSource g.emptied).succs =
        ((List.range g.size).map (outgoingOf g.edges)).toArray := by
      refine Array.ext_getElem? fun slot => ?_
      rw [getElem?_foldl_listedAtSource]
      by_cases hslot : slot < g.size
      · simp [emptied, hsize, hslot]
      · simp [emptied, hsize, hslot]
    have hpreds := preds_foldl_listedAtSource g.emptied g.edges
    generalize g.edges.foldl listedAtSource g.emptied = filled at hsuccs hpreds ⊢
    show Except.ok (⟨filled.preds, filled.succs⟩ : Graph) = _
    rw [hsuccs, hpreds]
    rfl
  · rfl

/-! ## Graphs that can be built

A graph is built by edits, and an inversion may come at any time. What refilling needs of a graph is that it is
balanced, which holds at the start and after every edit that succeeds. -/

/-- What a graph can be asked to do. -/
inductive Edit where
  | addNode
  | addEdge (e : Edge)
  | invert
  | clear

/-- A graph after one edit. An edge needs an existing target, and an inversion existing sources. -/
def edit (g : Graph) : Edit → Except Fault Graph
  | .addNode => .ok g.addNode
  | .addEdge e => g.addEdge e
  | .invert => g.invert
  | .clear => .ok .empty

/-- A new graph after some edits. -/
def afterEdits (edits : List Edit) : Except Fault Graph := edits.foldlM edit empty

/-- **The step.** Nodes are added to both sides at once, edges to existing lists, and an inversion makes as many
lists as there are slots. -/
theorem Balanced.edit {g g' : Graph} (h : g.Balanced) {e : Edit} (hedit : g.edit e = .ok g') :
    g'.Balanced := by
  have hsize : g.succs.size = g.size := h
  cases e with
  | addNode =>
    -- the only edit that makes room, and it does so on both sides
    cases hedit
    show (g.succs.push []).size = g.addNode.size
    rw [size_addNode, Array.size_push, hsize]
  | addEdge e =>
    have hadd : g.addEdge e = .ok g' := hedit
    unfold addEdge at hadd
    split at hadd
    · cases hadd
      show g.succs.size = (g.insertEdge e).size
      rw [size_insertEdge, hsize]
    · cases hadd
  | invert =>
    have hinvert : g.invert = .ok g' := hedit
    rw [(invert_eq_ok_iff.mp hinvert).2]
    show ((List.range g.size).map (outgoingOf g.edges)).toArray.size = g.size
    simp
  | clear =>
    cases hedit
    rfl

/-- **The run.** The empty graph is balanced, and every edit keeps that. -/
theorem balanced_afterEdits {edits : List Edit} {g : Graph} (h : afterEdits edits = .ok g) :
    g.Balanced := by
  have hempty : empty.Balanced := rfl
  exact foldlM_ok_of_preserves hempty (fun _ _ _ _ hb hedit => hb.edit hedit) h

section Invert

variable {g g' : Graph} (h : g.invert = .ok g')
include h

/-- Edges are read off the predecessor lists, which inversion keeps. -/
theorem edges_of_invert : g'.edges = g.edges := by
  unfold edges size predsOf
  rw [preds_of_invert h]

/-- No edge leaves a slot that does not exist, so the lists are the outgoing edges of any slot. -/
theorem succsOf_eq_outgoingOf (slot : Slot) : g'.succsOf slot = outgoingOf g'.edges slot := by
  rw [succsOf_of_invert h, edges_of_invert h]
  split
  · rfl
  · rename_i hout
    unfold outgoingOf
    refine (List.map_eq_nil_iff.mpr (List.filter_eq_nil_iff.mpr ?_)).symm
    intro e he hsource
    have hlt := (invert_eq_ok_iff.mp h).1 _ _ (depends_of_mem_edges he)
    exact hout (of_decide_eq_true hsource ▸ hlt)

/-- A second inversion finds what the first has made. -/
theorem invert_of_invert : g'.invert = .ok g' := by
  obtain ⟨hsource, hsuccs⟩ := invert_eq_ok_iff.mp h
  refine invert_eq_ok_iff.mpr ⟨?_, ?_⟩
  · intro source target hdepends
    rw [size_of_invert h]
    exact hsource source target ((depends_of_invert h).mp hdepends)
  · rw [edges_of_invert h, size_of_invert h, hsuccs]

end Invert

/-- **Inversion transposes.** Take any graph that edits can make, all of whose edges start at slots that exist. Its
inversion succeeds, and so does the one in place, with the same result. An edge stands in the list of its source as
often as in the list of its target; the list of a source goes by target, and to one target in the order in which the
target lists it. The predecessor lists are as before, and inverting again changes nothing. -/
theorem invert_transposes {edits : List Edit} {g : Graph} (hrun : afterEdits edits = .ok g)
    (hsources : ∀ e ∈ g.edges, e.source < g.size) :
    ∃ g', g.invert = .ok g' ∧ g.refill = .ok g' ∧
      (∀ slot, slot < g.size →
        g'.successors slot = .ok (g'.succsOf slot) ∧ g'.predecessors slot = .ok (g'.predsOf slot)) ∧
      (∀ source target label,
        (g'.succsOf source).count ⟨label, target⟩ = (g'.predsOf target).count ⟨label, source⟩) ∧
      (∀ source, (g'.succsOf source).Pairwise fun d d' => d.slot ≤ d'.slot) ∧
      (∀ source target, labelsFor target (g'.succsOf source) = labelsFor source (g'.predsOf target)) ∧
      g'.preds = g.preds ∧ g'.invert = .ok g' := by
  have hbalanced := balanced_afterEdits hrun
  obtain ⟨g', hinvert⟩ := exists_invert_eq_ok (g := g) fun source target hdepends => by
    obtain ⟨d, hd, rfl⟩ := hdepends
    exact hsources (d.into target) (mem_edges_iff.mpr ⟨d, hd, rfl⟩)
  -- all that is said about the order follows from the symmetry and from the lists being outgoing edges
  have hlabels : ∀ source target,
      labelsFor target (g'.succsOf source) = labelsFor source (g'.predsOf target) := by
    intro source target
    rw [succsOf_eq_outgoingOf hinvert, labelsFor_outgoingOf]
  refine ⟨g', hinvert, hbalanced.refill_eq_invert.trans hinvert, ?_, ?_, ?_, hlabels,
    preds_of_invert hinvert, invert_of_invert hinvert⟩
  · intro slot hslot
    have hpreds : slot < g'.preds.size := by
      rw [preds_of_invert hinvert]
      exact hslot
    have hsuccs : g'.succs.size = g'.preds.size := hbalanced.edit (e := .invert) hinvert
    exact ⟨if_pos (hsuccs ▸ hpreds), if_pos hpreds⟩
  · intro source target label
    rw [count_eq_count_labelsFor, count_eq_count_labelsFor, hlabels]
  · intro source
    rw [succsOf_eq_outgoingOf hinvert]
    exact g'.slots_outgoingOf_sorted source

/-- Nodes and edges before and after an inversion, and before them a graph that was given up. One slot has two equal
edges to another with a different one between them. -/
def parallelEdits : List Edit :=
  [.addNode, .clear, .addNode, .addNode, .addEdge { source := 0, target := 1, hazard := .raw }, .invert, .addNode,
   .addEdge { source := 0, target := 2, hazard := .waw }, .addEdge { source := 0, target := 1, hazard := .war },
   .addEdge { source := 2, target := 1, hazard := .raw }, .addEdge { source := 0, target := 1, hazard := .raw }]

/-- The first inversion had found one edge. The second finds both equal ones, in their places. -/
theorem invert_transposes_parallelEdits :
    ∃ g g', afterEdits parallelEdits = .ok g ∧ (∀ e ∈ g.edges, e.source < g.size) ∧
      (g.succsOf 0).length = 1 ∧ g.invert = .ok g' ∧ g.refill = .ok g' ∧
      (g'.succsOf 0).count ⟨{ hazard := .raw }, 1⟩ = 2 ∧
      (labelsFor 1 (g'.succsOf 0)).map (·.hazard) = [.raw, .war, .raw] ∧ g'.invert = .ok g' := by
  obtain ⟨g, hrun, hold, hpreds, hsources⟩ : ∃ g, afterEdits parallelEdits = .ok g ∧
      (g.succsOf 0).length = 1 ∧
      g.predsOf 1 = [⟨{ hazard := .raw }, 0⟩, ⟨{ hazard := .war }, 0⟩, ⟨{ hazard := .raw }, 2⟩,
        ⟨{ hazard := .raw }, 0⟩] ∧
      ∀ e ∈ g.edges, e.source < g.size := ⟨_, rfl, rfl, rfl, by decide⟩
  obtain ⟨g', hinvert, hrefill, _, hcount, _, hlabels, _, hagain⟩ := invert_transposes hrun hsources
  refine ⟨g, g', hrun, hsources, hold, hinvert, hrefill, ?_, ?_, hagain⟩
  · rw [hcount, predsOf_of_invert hinvert, hpreds]
    rfl
  · rw [hlabels, predsOf_of_invert hinvert, hpreds]
    rfl

end Graph

end DualIssue
