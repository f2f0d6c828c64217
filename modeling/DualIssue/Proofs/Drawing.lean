import DualIssue.Proofs.JsonText
import DualIssue.Proofs.ListedBlocks
import DualIssue.Proofs.TextLines
import Mathlib.Data.List.Nodup

/-!
# What a drawing shows

The drawing of a schedule lists its nodes in the order of issue, and then the arrows out of each of them. This module
reads a drawing as text and finds in it exactly the instructions and the edges of the schedule.

* **`isNodeLine`**, **`isArrowLine`**: what a line is about, told from its text alone.
* **`arrowLine_inj`**: a line names the ends of its arrow.
* **`targetsOf`** has every successor once; over all issued records no arrow is drawn twice, and none is forgotten
  (`nodup_arrows`, `mem_arrows_iff`).
* **`drawing_shows_graph`**: the drawing of a schedule shows its block and its graph.
-/

namespace DualIssue

open DualIssue.Graph

namespace Dot

/-! ## Reading a line

A line says what it is about by how it begins: with the name of a node, which is three letters and a number, and
then with an attribute list or with an arrow. Everything rests on the number ending where the digits end, so
that the name can be cut off again (`span_toDigits`). -/

/-- Does the line start with the name of a node, and does the mark come right after the name? -/
def marksAfterName (mark : List Char) (line : String) : Bool :=
  ['L', 'I', 'R'].isPrefixOf line.toList && mark.isPrefixOf ((line.toList.drop 3).span Char.isDigit).2

/-- A line that gives a node its attributes. -/
def isNodeLine : String → Bool := marksAfterName [' ', '[']

/-- A line that draws an arrow from a node. -/
def isArrowLine : String → Bool := marksAfterName ['-', '>']

theorem toList_nodeName (slot : Slot) : (nodeName slot).toList = 'L' :: 'I' :: 'R' :: Nat.toDigits 10 slot := by
  simp [nodeName]

/-- A number can be read back from its digits. -/
theorem toDigits_inj {a b : Slot} (h : Nat.toDigits 10 a = Nat.toDigits 10 b) : a = b := by
  rw [← Nat.ofDigitChars_ten_toDigits (n := a), h, Nat.ofDigitChars_ten_toDigits]

/-- The text does not go on with a number that stands in front of it. -/
def EndsNumber (rest : List Char) : Prop := ∀ c ∈ rest.head?, c.isDigit = false

theorem endsNumber_cons {c : Char} (h : c.isDigit = false) (rest : List Char) : EndsNumber (c :: rest) := by
  intro c' hc'
  cases hc'
  exact h

/-- Cutting where the digits end gives back the number, if no digit follows it. -/
theorem span_toDigits {rest : List Char} (hrest : EndsNumber rest) (slot : Slot) :
    (Nat.toDigits 10 slot ++ rest).span Char.isDigit = (Nat.toDigits 10 slot, rest) :=
  Json.span_digits (fun _ => Nat.isDigit_of_mem_toDigits (by decide) (by decide)) hrest

/-- A line with the name of a node in front has the mark exactly if the rest of it starts with the mark. -/
theorem marksAfterName_nodeName (mark : List Char) (slot : Slot) {rest : String} (hrest : EndsNumber rest.toList) :
    marksAfterName mark (nodeName slot ++ rest) = mark.isPrefixOf rest.toList := by
  unfold marksAfterName
  rw [String.toList_append, toList_nodeName]
  show (true && mark.isPrefixOf ((Nat.toDigits 10 slot ++ rest.toList).span Char.isDigit).2) = _
  rw [span_toDigits hrest, Bool.true_and]

/-- A line that starts with the name of a node names no other node, and the rest of the line is what follows.
Both sides are cut where their digits end. -/
theorem nodeName_append_inj {a b : Slot} {rest rest' : String} (hrest : EndsNumber rest.toList)
    (hrest' : EndsNumber rest'.toList) (h : nodeName a ++ rest = nodeName b ++ rest') : a = b ∧ rest = rest' := by
  have hchars : Nat.toDigits 10 a ++ rest.toList = Nat.toDigits 10 b ++ rest'.toList := by
    simpa [toList_nodeName] using congrArg String.toList h
  -- the digits end where the rest starts, on both sides
  have hspan := congrArg (List.span Char.isDigit) hchars
  rw [span_toDigits hrest, span_toDigits hrest'] at hspan
  obtain ⟨hdigits, hrests⟩ := Prod.mk.inj hspan
  exact ⟨toDigits_inj hdigits, String.toList_inj.mp hrests⟩

/-! ## The lines of a drawing

There are two kinds of lines that start with the name of a node, and each is recognised as what it is. No line
of either kind has a line break: the texts of instructions have none, and escaping adds none. -/

theorem nodeLine_eq (r : Record) : ∃ rest, nodeLine r = nodeName r.slot ++ (" [" ++ rest) := by
  have hopen : " [shape=record, label=\"\x7b" = " [" ++ "shape=record, label=\"\x7b" := rfl
  unfold nodeLine
  rw [hopen]
  simp only [String.append_assoc]
  exact ⟨_, rfl⟩

theorem arrowLine_eq (source target : Slot) :
    arrowLine source target = nodeName source ++ ("->" ++ nodeName target) := by
  rw [arrowLine, String.append_assoc]

theorem toList_attributes (rest : String) : (" [" ++ rest).toList = ' ' :: '[' :: rest.toList := by
  rw [String.toList_append]
  rfl

theorem toList_arrow (rest : String) : ("->" ++ rest).toList = '-' :: '>' :: rest.toList := by
  rw [String.toList_append]
  rfl

/-- **A line names the ends of its arrow.** The source is cut off in front of the arrow (`nodeName_append_inj`),
the target is what is left. -/
theorem arrowLine_inj {a b a' b' : Slot} (h : arrowLine a b = arrowLine a' b') : a = a' ∧ b = b' := by
  rw [arrowLine_eq, arrowLine_eq] at h
  have hends : ∀ target, EndsNumber ("->" ++ nodeName target).toList := by
    intro target
    rw [toList_arrow]
    exact endsNumber_cons rfl _
  obtain ⟨hsource, hrest⟩ := nodeName_append_inj (hends b) (hends b') h
  -- the second name ends the line, so its digits can be compared as they are
  have hchars := congrArg String.toList hrest
  rw [toList_arrow, toList_arrow, toList_nodeName, toList_nodeName] at hchars
  simp only [List.cons.injEq, true_and] at hchars
  exact ⟨hsource, toDigits_inj hchars⟩

section Kinds

variable (r : Record) (source target : Slot)

/-- After the name, the line of a node goes on with a blank and a bracket, so that a mark is compared with
these. -/
theorem marksAfterName_nodeLine (mark : List Char) :
    ∃ rest, marksAfterName mark (nodeLine r) = mark.isPrefixOf (' ' :: '[' :: rest) := by
  obtain ⟨rest, hline⟩ := nodeLine_eq r
  refine ⟨rest.toList, ?_⟩
  rw [hline, marksAfterName_nodeName, toList_attributes]
  rw [toList_attributes]
  exact endsNumber_cons rfl _

/-- After the first name, the line of an arrow goes on with the arrow. -/
theorem marksAfterName_arrowLine (mark : List Char) :
    ∃ rest, marksAfterName mark (arrowLine source target) = mark.isPrefixOf ('-' :: '>' :: rest) := by
  refine ⟨(nodeName target).toList, ?_⟩
  rw [arrowLine_eq, marksAfterName_nodeName, toList_arrow]
  rw [toList_arrow]
  exact endsNumber_cons rfl _

@[simp] theorem isNodeLine_nodeLine : isNodeLine (nodeLine r) = true := by
  obtain ⟨_, h⟩ := marksAfterName_nodeLine r [' ', '[']
  exact h

@[simp] theorem isArrowLine_nodeLine : isArrowLine (nodeLine r) = false := by
  obtain ⟨_, h⟩ := marksAfterName_nodeLine r ['-', '>']
  exact h

@[simp] theorem isNodeLine_arrowLine : isNodeLine (arrowLine source target) = false := by
  obtain ⟨_, h⟩ := marksAfterName_arrowLine source target [' ', '[']
  exact h

@[simp] theorem isArrowLine_arrowLine : isArrowLine (arrowLine source target) = true := by
  obtain ⟨_, h⟩ := marksAfterName_arrowLine source target ['-', '>']
  exact h

end Kinds

/-- Escaping puts a backslash in front of some characters and adds no others. -/
theorem newline_not_mem_escape {s : String} (h : '\n' ∉ s.toList) : '\n' ∉ (escape s).toList := by
  unfold escape
  rw [String.toList_ofList, List.mem_flatMap]
  rintro ⟨c, hc, hmem⟩
  have hne : '\n' ≠ c := fun heq => h (heq ▸ hc)
  split at hmem <;> simp [hne] at hmem

/-- The line of a node has no line break: its text is a name, an instruction and numbers. -/
theorem newline_not_mem_nodeLine (r : Record) : '\n' ∉ (nodeLine r).toList := by
  have hinst := newline_not_mem_escape r.inst.newline_not_mem_text
  unfold nodeLine
  simp [toList_nodeName, hinst]

theorem newline_not_mem_arrowLine (source target : Slot) : '\n' ∉ (arrowLine source target).toList := by
  simp [arrowLine, toList_nodeName]

/-! ## Arrows

The arrows of a slot lead to its successors, each of them once, whatever number of edges there is between the
two. `foldl_keepNew` says so of the fold that drops repetitions. Over all records arrows differ by their
sources, and every edge is found at the record of its source, because all slots of the graph have issued. -/

/-- Elements that are kept only if they are new: none is kept twice, and none is lost. Induction on the list,
for any elements that have been seen before. -/
theorem foldl_keepNew {α : Type} [DecidableEq α] (l : List α) {seen : List α} (hseen : seen.Nodup) :
    let kept := l.foldl (fun seen a => if a ∈ seen then seen else seen ++ [a]) seen
    kept.Nodup ∧ ∀ a, a ∈ kept ↔ a ∈ seen ∨ a ∈ l := by
  induction l generalizing seen with
  | nil => exact ⟨hseen, by simp⟩
  | cons b l ih =>
    rw [List.foldl_cons]
    split
    · rename_i hb
      obtain ⟨hnodup, hmem⟩ := ih hseen
      refine ⟨hnodup, fun a => ?_⟩
      rw [hmem, List.mem_cons]
      constructor
      · rintro (ha | ha)
        · exact Or.inl ha
        · exact Or.inr (Or.inr ha)
      · rintro (ha | rfl | ha)
        · exact Or.inl ha
        · exact Or.inl hb
        · exact Or.inr ha
    · rename_i hb
      -- an element that was not seen goes to the end, and is seen from then on
      have hnew : (seen ++ [b]).Nodup :=
        List.nodup_append.mpr ⟨hseen, List.nodup_singleton b, fun a ha c hc heq =>
          hb (List.mem_singleton.mp hc ▸ heq ▸ ha)⟩
      obtain ⟨hnodup, hmem⟩ := ih hnew
      refine ⟨hnodup, fun a => ?_⟩
      rw [hmem, List.mem_append, List.mem_singleton, List.mem_cons, or_assoc]

theorem nodup_targetsOf (g : Graph) (slot : Slot) : (targetsOf g slot).Nodup :=
  (foldl_keepNew _ List.nodup_nil).1

theorem mem_targetsOf_iff {g : Graph} {slot target : Slot} :
    target ∈ targetsOf g slot ↔ ∃ d ∈ g.succsOf slot, d.slot = target := by
  unfold targetsOf
  rw [(foldl_keepNew _ List.nodup_nil).2]
  simp

/-- The arrows of a record lead to the successors of its slot, provided that the graph has this slot. -/
theorem mem_arrowLines_iff {g : Graph} {r : Record} {line : String} :
    line ∈ arrowLines g r ↔
      r.slot < g.size ∧
        ∃ target, (∃ d ∈ g.succsOf r.slot, d.slot = target) ∧ arrowLine r.slot target = line := by
  unfold arrowLines
  split
  · rename_i hlt
    simp only [List.mem_map, mem_targetsOf_iff, hlt, true_and]
  · rename_i hge
    exact iff_of_false (List.not_mem_nil) fun h => hge h.1

section Arrows

variable {g : Graph} {issued : List Record}

/-- **No arrow is drawn twice**: those of a slot lead to different targets, and different slots have different
arrows. Both parts compare lines by their ends (`arrowLine_inj`). -/
theorem nodup_arrows (hslots : (issued.map (·.slot)).Nodup) : (issued.flatMap (arrowLines g)).Nodup := by
  refine List.nodup_flatMap.mpr ⟨?_, ?_⟩
  · intro r _
    unfold arrowLines
    split
    · exact (nodup_targetsOf g r.slot).map fun _ _ h => (arrowLine_inj h).2
    · exact List.nodup_nil
  · refine (List.pairwise_map.mp hslots).imp ?_
    intro r r' hne line hline hline'
    obtain ⟨_, _, _, hr⟩ := mem_arrowLines_iff.mp hline
    obtain ⟨_, _, _, hr'⟩ := mem_arrowLines_iff.mp hline'
    exact hne (arrowLine_inj (hr.trans hr'.symm)).1

/-- **The arrows are the edges**, each of them whatever its hazards are, if every slot of the graph has issued.
In an inverted graph the successors are the targets of edges (`Inverted.succs_iff`). -/
theorem mem_arrows_iff (hg : g.Inverted) (hall : ∀ slot, slot < g.size → ∃ r ∈ issued, r.slot = slot)
    {line : String} :
    line ∈ issued.flatMap (arrowLines g) ↔
      ∃ source target, g.Depends source target ∧ line = arrowLine source target := by
  rw [List.mem_flatMap]
  constructor
  · rintro ⟨r, _, hline⟩
    obtain ⟨_, target, hsucc, rfl⟩ := mem_arrowLines_iff.mp hline
    exact ⟨r.slot, target, hg.succs_iff.mp hsucc, rfl⟩
  · rintro ⟨source, target, hdepends, rfl⟩
    have hlt := hg.source_lt hdepends
    obtain ⟨r, hr, rfl⟩ := hall source hlt
    exact ⟨r, hr, mem_arrowLines_iff.mpr ⟨hlt, target, hg.succs_iff.mpr hdepends, rfl⟩⟩

end Arrows

/-! ## Whole drawings

A drawing is written line by line, the first of which shows its name. Only the name can hold line breaks, so cutting
the text at its line breaks gives the lines of the head, whatever they are, and then the other lines as they were
written (`textLines_drawing`). The settings and the closing brace start with no node's name, so after the head the node
lines are those of the records and the arrow lines those of the graph. -/

/-- The head of a drawing. -/
def headLine (name : String) : String := "digraph BB" ++ name ++ " \x7b"

/-- The lines of a drawing after the head. -/
def bodyLines (g : Graph) (issued : List Record) : List String :=
  "forcelabels = true" :: (issued.map nodeLine ++ issued.flatMap (arrowLines g) ++ ["\x7d"])

/-- The text of a drawing. -/
def drawing (name : String) (g : Graph) (issued : List Record) : String :=
  headLine name ++ "\n" ++ String.join ((bodyLines g issued).map (· ++ "\n"))

/-- What is rendered of a schedule whose records can be listed is the drawing of these records. -/
theorem render_eq_drawing {s : BlockSchedule} {issued : List Record} (h : s.issued = .ok issued) (name : String) :
    render name s = .ok (drawing name s.graph issued) := by
  have hlines : lines name s.graph issued = headLine name :: bodyLines s.graph issued := rfl
  unfold render
  rw [h]
  show Except.ok (String.join ((lines name s.graph issued).map (· ++ "\n"))) = _
  rw [hlines, List.map_cons, String.join_cons]
  rfl

section Lines

variable (name : String) (g : Graph) (issued : List Record)

theorem exists_arrowLine_of_mem {line : String} (h : line ∈ issued.flatMap (arrowLines g)) :
    ∃ source target, arrowLine source target = line := by
  obtain ⟨r, _, hline⟩ := List.mem_flatMap.mp h
  obtain ⟨_, target, _, heq⟩ := mem_arrowLines_iff.mp hline
  exact ⟨r.slot, target, heq⟩

/-- No line after the head has a line break of its own: instructions are shown on one line
(`newline_not_mem_nodeLine`), and arrows are names and digits. -/
theorem newline_not_mem_of_mem_bodyLines : ∀ line ∈ bodyLines g issued, '\n' ∉ line.toList := by
  intro line hline
  rcases List.mem_cons.mp hline with rfl | hline
  · decide
  rcases List.mem_append.mp hline with hline | hline
  · rcases List.mem_append.mp hline with hnode | harrow
    · obtain ⟨r, _, rfl⟩ := List.mem_map.mp hnode
      exact newline_not_mem_nodeLine r
    · obtain ⟨source, target, rfl⟩ := exists_arrowLine_of_mem g issued harrow
      exact newline_not_mem_arrowLine source target
  · rw [List.mem_singleton.mp hline]
    decide

/-- **A drawing can be read back.** Its lines are those of its head, which are several if the name has line breaks,
and then the lines that were written after it. -/
theorem textLines_drawing :
    textLines (drawing name g issued) = textLines (headLine name) ++ (bodyLines g issued ++ [""]) := by
  unfold drawing
  rw [textLines_append_newline, textLines_join (newline_not_mem_of_mem_bodyLines g issued)]

/-- A kind of lines to which the settings, the end and the empty rest do not belong is found in the head, among the
lines of the records and among the arrows, in this order. -/
theorem filter_textLines_drawing {kind : String → Bool} (hsettings : kind "forcelabels = true" = false)
    (hend : kind "\x7d" = false) (hrest : kind "" = false) :
    (textLines (drawing name g issued)).filter kind =
      (textLines (headLine name)).filter kind ++
        ((issued.map nodeLine).filter kind ++ (issued.flatMap (arrowLines g)).filter kind) := by
  rw [textLines_drawing]
  simp [bodyLines, hsettings, hend, hrest]

/-- The node lines of a drawing, after those in the head, are the lines of the records and no arrows. -/
theorem nodeLines_drawing :
    (textLines (drawing name g issued)).filter isNodeLine =
      (textLines (headLine name)).filter isNodeLine ++ issued.map nodeLine := by
  have hnodes : (issued.map nodeLine).filter isNodeLine = issued.map nodeLine :=
    List.filter_eq_self.mpr (by simp)
  have harrows : (issued.flatMap (arrowLines g)).filter isNodeLine = [] := by
    refine List.filter_eq_nil_iff.mpr fun line hline => ?_
    obtain ⟨source, target, rfl⟩ := exists_arrowLine_of_mem g issued hline
    simp
  rw [filter_textLines_drawing name g issued (by decide) (by decide) (by decide), hnodes, harrows, List.append_nil]

/-- The arrows of a drawing, after those in the head, are the arrows of the graph and no lines of records. -/
theorem arrowLines_drawing :
    (textLines (drawing name g issued)).filter isArrowLine =
      (textLines (headLine name)).filter isArrowLine ++ issued.flatMap (arrowLines g) := by
  have hnodes : (issued.map nodeLine).filter isArrowLine = [] := List.filter_eq_nil_iff.mpr (by simp)
  have harrows : (issued.flatMap (arrowLines g)).filter isArrowLine = issued.flatMap (arrowLines g) := by
    refine List.filter_eq_self.mpr fun line hline => ?_
    obtain ⟨source, target, rfl⟩ := exists_arrowLine_of_mem g issued hline
    simp
  rw [filter_textLines_drawing name g issued (by decide) (by decide) (by decide), hnodes, harrows, List.nil_append]

/-- A head on one line is neither a node line nor an arrow: it starts with another letter than the names of nodes. -/
theorem filter_headLine {name : String} (hname : '\n' ∉ name.toList) (mark : List Char) :
    (textLines (headLine name)).filter (marksAfterName mark) = [] := by
  have hhead : '\n' ∉ (headLine name).toList := by
    simp [headLine, hname]
  have hmark : marksAfterName mark (headLine name) = false := by
    unfold marksAfterName headLine
    rw [String.append_assoc, String.toList_append]
    rfl
  rw [textLines_of_not_mem hhead]
  simp [hmark]

end Lines

end Dot

/-! ## Drawings of schedules

What the drawing needs of a schedule: its graph is inverted and within the block, and the records are those of
the order, slot by slot. With scheduling on this comes from the theory of schedules, and with scheduling off the
graph is empty. -/

theorem Graph.depends_iff_hasEdge {g : Graph} {source target : Slot} :
    g.Depends source target ↔ ∃ hazard, g.hasEdge source target hazard = true := by
  unfold Depends hasEdge
  constructor
  · rintro ⟨d, hd, hslot⟩
    exact ⟨d.hazard, List.any_eq_true.mpr ⟨d, hd, by simp [hslot]⟩⟩
  · rintro ⟨hazard, h⟩
    obtain ⟨d, hd, hboth⟩ := List.any_eq_true.mp h
    exact ⟨d, hd, (by simpa using hboth : d.slot = source ∧ d.hazard = hazard).1⟩

theorem Graph.not_depends_empty {source target : Slot} : ¬ empty.Depends source target :=
  fun h => Nat.not_lt_zero target h.target_lt

/-- The empty graph is inverted, since it has no edges on either side. -/
theorem Graph.inverted_empty : empty.Inverted := by
  refine ⟨fun h => absurd h not_depends_empty, ?_, ?_⟩
  · intro source target
    exact iff_of_false (by simp [succsOf, empty]) not_depends_empty
  · intro source d hd
    simp [succsOf, empty] at hd

/-- The records in issue order are those that the order names, slot by slot. -/
theorem records_of_issued {s : BlockSchedule} {issued : List Record} (h : s.issued = .ok issued) :
    List.Forall₂ (fun slot r => s.records[slot]? = some r) s.order issued := by
  refine (forall₂_of_mapM_eq_ok h).imp fun slot r hr => ?_
  split at hr
  · rename_i hfound
    cases hr
    exact hfound
  · cases hr

section Schedule

variable {model : MachineModel} {options : Options} {block : List Instruction} {s : BlockSchedule}
  (h : scheduleBlock model options block = .ok s)
include h

theorem graph_of_disabled (hdisabled : options.enabled = false) : s.graph = .empty := by
  obtain ⟨records, hrecords⟩ := exists_enlist_of_scheduleBlock h
  cases (scheduleBlock_of_disabled hdisabled hrecords).symm.trans h
  rfl

/-- The graph of a schedule is inverted and lies within the block, also the empty one without reordering. With
reordering it is the closed graph of the tracker (`Tracker.Closes`). -/
theorem graph_of_scheduleBlock : s.graph.Inverted ∧ s.graph.size ≤ block.length := by
  by_cases henabled : options.enabled = true
  · have hcloses := (scheduled_of_scheduleBlock henabled h).closes
    refine ⟨hcloses.inverted, ?_⟩
    rw [hcloses.size_eq, (Tracker.tidy_recordedBlock options.latencies block).2]
  · rw [graph_of_disabled h (by simpa using henabled)]
    exact ⟨inverted_empty, Nat.zero_le _⟩

/-- The records in issue order name the slots of the order: each stands in its own slot
(`issued_of_scheduleBlock`). -/
theorem slots_of_issued {issued : List Record} (hissued : s.issued = .ok issued) :
    issued.map (·.slot) = s.order := by
  obtain ⟨hperm, _⟩ := places_of_scheduleBlock h
  obtain ⟨hissued', hplaces⟩ := issued_of_scheduleBlock h
  cases hissued'.symm.trans hissued
  have hlt : ∀ slot ∈ s.order, slot < block.length := fun _ hslot => List.mem_range.mp (hperm.mem_iff.mp hslot)
  have hslots := map_snd_filterMap_zipIdx hlt
  rw [← hplaces, List.map_map] at hslots
  exact hslots

end Schedule

namespace Dot

/-- The line is that of a node: it starts with the name of the slot, and shows the record of the instruction that
stands there. -/
def ShowsNode (block : List Instruction) (s : BlockSchedule) (slot : Slot) (line : String) : Prop :=
  ∃ r rest, s.records[slot]? = some r ∧ block[slot]? = some r.inst ∧ line = nodeLine r ∧
    line = "LIR" ++ toString slot ++ " [" ++ rest

theorem showsNode_nodeLine {block : List Instruction} {s : BlockSchedule} {slot : Slot} {r : Record}
    (hplace : s.records[slot]?.map Record.place = block.zipIdx[slot]?) (hr : s.records[slot]? = some r) :
    ShowsNode block s slot (nodeLine r) := by
  rw [hr, List.getElem?_zipIdx, Option.map_some, Nat.zero_add] at hplace
  obtain ⟨inst, hinst, heq⟩ := Option.map_eq_some_iff.mp hplace.symm
  obtain ⟨rfl, rfl⟩ := Prod.mk.inj heq
  obtain ⟨rest, hline⟩ := nodeLine_eq r
  exact ⟨r, rest, hr, hinst, rfl, hline.trans String.append_assoc.symm⟩

theorem arrowLine_text (source target : Slot) :
    arrowLine source target = "LIR" ++ toString source ++ "->LIR" ++ toString target := by
  unfold arrowLine nodeName
  simp only [String.append_assoc]
  rfl

section Arrows

variable {model : MachineModel} {options : Options} {block : List Instruction} {s : BlockSchedule}
  {issued : List Record} (h : scheduleBlock model options block = .ok s) (hissued : s.issued = .ok issued)
include h hissued

/-- No arrow of a schedule is drawn twice, because no slot issues twice. -/
theorem nodup_arrows_of_scheduleBlock : (issued.flatMap (arrowLines s.graph)).Nodup := by
  refine nodup_arrows ?_
  rw [slots_of_issued h hissued]
  exact (places_of_scheduleBlock h).1.nodup_iff.mpr List.nodup_range

/-- **A schedule's arrows are its edges**: its graph is inverted, and all of its slots have issued, so that no edge is
left out for want of a record to draw it from. -/
theorem mem_arrows_of_scheduleBlock {line : String} :
    line ∈ issued.flatMap (arrowLines s.graph) ↔
      ∃ source target, (∃ hazard, s.graph.hasEdge source target hazard = true) ∧
        line = "LIR" ++ toString source ++ "->LIR" ++ toString target := by
  obtain ⟨hinverted, hsize⟩ := graph_of_scheduleBlock h
  obtain ⟨hperm, _⟩ := places_of_scheduleBlock h
  have hall : ∀ slot, slot < s.graph.size → ∃ r ∈ issued, r.slot = slot := by
    intro slot hslot
    have hmem : slot ∈ issued.map (·.slot) :=
      slots_of_issued h hissued ▸ hperm.mem_iff.mpr (List.mem_range.mpr (Nat.lt_of_lt_of_le hslot hsize))
    exact List.mem_map.mp hmem
  simp only [mem_arrows_iff hinverted hall, depends_iff_hasEdge, arrowLine_text]

end Arrows

/-- **The drawing of a schedule shows its block and its graph**, if its name has no line break. Cut the text into lines
and tell them apart by what they say. Then one line shows each instruction, in the order of issue; and the arrows are
all different, one for each pair of slots between which the graph has an edge, of whatever hazard. Without reordering
there are none. The name stands in the head, where `filter_headLine` finds neither nodes nor arrows; what the other
lines show is `nodeLines_drawing` and `arrowLines_drawing`. -/
theorem drawing_shows_graph {model : MachineModel} {options : Options} {block : List Instruction}
    {s : BlockSchedule} (h : scheduleBlock model options block = .ok s) {name : String}
    (hname : '\n' ∉ name.toList) :
    ∃ text, render name s = .ok text ∧
      s.order.Perm (List.range block.length) ∧
      List.Forall₂ (ShowsNode block s) s.order ((textLines text).filter isNodeLine) ∧
      ((textLines text).filter isArrowLine).Nodup ∧
      (∀ line, line ∈ (textLines text).filter isArrowLine ↔
        ∃ source target, (∃ hazard, s.graph.hasEdge source target hazard = true) ∧
          line = "LIR" ++ toString source ++ "->LIR" ++ toString target) ∧
      (options.enabled = false → (textLines text).filter isArrowLine = []) := by
  obtain ⟨hperm, hplaces⟩ := places_of_scheduleBlock h
  obtain ⟨issued, hissued⟩ : ∃ issued, s.issued = .ok issued := ⟨_, (issued_of_scheduleBlock h).1⟩
  -- the head adds no lines of either kind
  have hnodeLines : (textLines (drawing name s.graph issued)).filter isNodeLine = issued.map nodeLine := by
    rw [nodeLines_drawing]
    exact congrArg (· ++ issued.map nodeLine) (filter_headLine hname _)
  have harrowLines : (textLines (drawing name s.graph issued)).filter isArrowLine =
      issued.flatMap (arrowLines s.graph) := by
    rw [arrowLines_drawing]
    exact congrArg (· ++ issued.flatMap (arrowLines s.graph)) (filter_headLine hname _)
  refine ⟨_, render_eq_drawing hissued name, hperm, ?_⟩
  rw [hnodeLines, harrowLines]
  refine ⟨?_, nodup_arrows_of_scheduleBlock h hissued, fun line => mem_arrows_of_scheduleBlock h hissued, ?_⟩
  · rw [List.forall₂_map_right_iff]
    exact (records_of_issued hissued).imp fun slot r => showsNode_nodeLine (hplaces slot)
  · intro hdisabled
    refine List.eq_nil_iff_forall_not_mem.mpr fun line hline => ?_
    obtain ⟨source, target, hedge, _⟩ := (mem_arrows_of_scheduleBlock h hissued).mp hline
    rw [graph_of_disabled h hdisabled] at hedge
    exact not_depends_empty (depends_iff_hasEdge.mpr hedge)

/-- A register is loaded and doubled, and another one is set. -/
def doubledLoad : List Instruction :=
  [{ mnemonic := .mov, operands := .memToReg (.unknown .esi 0) .ecx },
   { mnemonic := .add, operands := .regToReg .ecx .ecx },
   { mnemonic := .mov, operands := .immToReg 1 .edx }]

/-- With dear loads the last node comes second, and the three edges from the load to the addition are one arrow. -/
theorem drawing_shows_graph_doubledLoad :
    ∃ s text, scheduleBlock Atom.model { latencies := { memoryLoad := 3 } } doubledLoad = .ok s ∧
      render "7" s = .ok text ∧
      List.Forall₂ (ShowsNode doubledLoad s) [0, 2, 1] ((textLines text).filter isNodeLine) ∧
      (s.graph.edges.map fun e => (e.source, e.target, e.hazard)) = [(0, 1, .raw), (0, 1, .raw), (0, 1, .waw)] ∧
      ((textLines text).filter isArrowLine).count "LIR0->LIR1" = 1 := by
  have hschedule : (scheduleBlock Atom.model { latencies := { memoryLoad := 3 } } doubledLoad).map (fun s =>
      (s.order, s.graph.edges.map fun e => (e.source, e.target, e.hazard), s.graph.hasEdge 0 1 .raw)) =
      .ok ([0, 2, 1], [(0, 1, .raw), (0, 1, .raw), (0, 1, .waw)], true) := by
    decide +kernel
  obtain ⟨s, h, heq⟩ := Except.map_eq_ok_iff.mp hschedule
  simp only [Prod.mk.injEq] at heq
  obtain ⟨horder, hedges, hedge⟩ := heq
  obtain ⟨text, htext, _, hnodes, hnodup, harrows, _⟩ := @drawing_shows_graph _ _ _ _ h "7" (by decide)
  rw [horder] at hnodes
  have hmem := (harrows "LIR0->LIR1").mpr ⟨0, 1, ⟨.raw, hedge⟩, by decide⟩
  exact ⟨s, text, h, htext, hnodes, hedges, List.count_eq_one_of_mem hnodup hmem⟩

/-- A name that ends its line and goes on with a node line and an arrow. What it leaves of the head it makes a
comment. -/
def brokenName : String := "0 \x7b\nLIR5 [label=x]\nLIR0->LIR1\n//"

/-- A line break in the name is written as it is, so a name can bring in lines of its own: here a node that no
instruction has, and an arrow that the graph has too and that is therefore drawn twice. -/
theorem drawing_of_brokenName :
    ∃ s text, scheduleBlock Atom.model {} doubledLoad = .ok s ∧ render brokenName s = .ok text ∧
      "LIR5 [label=x]" ∈ (textLines text).filter isNodeLine ∧
      ¬ List.Forall₂ (ShowsNode doubledLoad s) s.order ((textLines text).filter isNodeLine) ∧
      ¬ ((textLines text).filter isArrowLine).Nodup := by
  have hschedule : (scheduleBlock Atom.model {} doubledLoad).map (fun s => s.graph.hasEdge 0 1 .raw) = .ok true := by
    decide +kernel
  obtain ⟨s, h, hedge⟩ := Except.map_eq_ok_iff.mp hschedule
  obtain ⟨issued, hissued⟩ : ∃ issued, s.issued = .ok issued := ⟨_, (issued_of_scheduleBlock h).1⟩
  have hnode : (textLines (headLine brokenName)).filter isNodeLine = ["LIR5 [label=x]"] := by decide +kernel
  have harrow : (textLines (headLine brokenName)).filter isArrowLine = ["LIR0->LIR1"] := by decide +kernel
  refine ⟨s, _, h, render_eq_drawing hissued brokenName, ?_⟩
  rw [nodeLines_drawing, arrowLines_drawing, hnode, harrow]
  refine ⟨List.mem_cons_self, ?_, ?_⟩
  · -- one line more than there are slots
    intro hshows
    have hlength := hshows.length_eq
    rw [← slots_of_issued h hissued] at hlength
    simp at hlength
  · intro hnodup
    refine (List.nodup_cons.mp hnodup).1 ?_
    exact (mem_arrows_of_scheduleBlock h hissued).mpr ⟨0, 1, ⟨.raw, hedge⟩, by decide⟩

end Dot

end DualIssue
