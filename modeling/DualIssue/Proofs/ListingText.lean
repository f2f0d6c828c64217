import DualIssue.CommandLine.Listing
import DualIssue.Proofs.TextLines
import Mathlib.Data.List.Basic

/-!
# Reading a listing

A listing is a text: a head, the rows of the blocks with an empty line between two of them, and at the end the
statistics if they are asked for. This module reads the text back, and finds in it the blocks that it was made from.

* **`isStatistics`**: what tells a line of statistics from a row, by the text alone.
* **`listedBlocks`**: the blocks that a text shows, each as its rows.
* **`textLines_listing`**: the lines of a listing are the lines that were written, because no row has a line break.
* **`listedBlocks_listing`**: a listing shows the blocks into which its records are split, row by row.
-/

namespace DualIssue

namespace CommandLine

/-! ## Rows

A row is made of six columns. What the reading needs to know about it is that it is a line of its own, that it is not
empty, and that it is no line of statistics. The first column holds a number or a dash, set to the right, and so starts
with a blank, a digit or a dash, never with a letter. -/

theorem newline_not_mem_alignRight (width : Nat) {s : String} (h : '\n' ∉ s.toList) :
    '\n' ∉ (alignRight width s).toList := by
  simp [alignRight, fill, h]

/-- A row is one line: its columns are numbers and names, and the last one is the text of an instruction
(`Instruction.newline_not_mem_text`). -/
theorem newline_not_mem_recordRow (r : Record) : '\n' ∉ (recordRow r).toList := by
  unfold recordRow row
  simp [newline_not_mem_alignRight]

/-- A line of statistics is one line: it is made of fixed words and numbers. -/
theorem newline_not_mem_statisticsLine (index : Nat) (block : List Record) :
    '\n' ∉ (statisticsLine index block).toList := by
  unfold statisticsLine cyclesText fixedText
  simp

/-- A line of statistics says which block it is about. -/
def isStatistics (line : String) : Bool := "block ".toList.isPrefixOf line.toList

@[simp] theorem isStatistics_statisticsLine (index : Nat) (block : List Record) :
    isStatistics (statisticsLine index block) = true := by
  unfold isStatistics statisticsLine
  simp [String.append_assoc]

/-- There are blanks between the columns of a row, so it is not empty. -/
theorem recordRow_ne_empty (r : Record) : recordRow r ≠ "" := by
  unfold recordRow row
  simp [String.append_eq_empty_iff]

/-- A number is shown by digits, and a missing one by a dash. -/
theorem letter_not_mem_numberText (n : Option Nat) : 'b' ∉ (Dot.numberText n).toList := by
  cases n with
  | none => decide
  | some n =>
    intro h
    have hmem : 'b' ∈ Nat.toDigits 10 n := by
      simpa [Dot.numberText] using h
    have hdigit : 'b'.isDigit = true := Nat.isDigit_of_mem_toDigits (by decide) (by decide) hmem
    cases hdigit

theorem numberText_ne_empty (n : Option Nat) : Dot.numberText n ≠ "" := by
  cases n with
  | none => decide
  | some n => simp [Dot.numberText]

/-- A line of statistics starts with a letter, and what stands in front of a row has none. -/
theorem isStatistics_append {front rest : String} (hne : front ≠ "") (hletter : 'b' ∉ front.toList) :
    isStatistics (front ++ rest) = false := by
  have hchars : front.toList ≠ [] := fun h => hne (String.toList_inj.mp h)
  obtain ⟨c, cs, heq⟩ := List.exists_cons_of_ne_nil hchars
  rw [heq, List.mem_cons, not_or] at hletter
  unfold isStatistics
  rw [String.toList_append, heq]
  show ('b' == c && _) = false
  rw [beq_false_of_ne hletter.1, Bool.false_and]

/-- A row is no line of statistics: its first column is not empty and has no letter. -/
@[simp] theorem isStatistics_recordRow (r : Record) : isStatistics (recordRow r) = false := by
  have hcolumn : alignRight 5 (Dot.numberText r.issueTime) ≠ "" := fun h =>
    numberText_ne_empty r.issueTime (String.append_eq_empty_iff.mp h).2
  have hletter : 'b' ∉ (alignRight 5 (Dot.numberText r.issueTime)).toList := by
    simp [alignRight, fill, letter_not_mem_numberText]
  unfold recordRow row
  simp only [String.append_assoc]
  exact isStatistics_append hcolumn hletter

/-! ## Whole listings

The lines of a listing are first found by cutting at line breaks, and then grouped into blocks by cutting at
empty lines. Cutting undoes joining, in both steps, if no part has the separator in it. -/

/-- What is in a joined list is the separator or comes from a part. Induction on the parts. -/
theorem mem_intercalate_singleton {α : Type} {separator a : α} {parts : List (List α)}
    (h : a ∈ [separator].intercalate parts) : a = separator ∨ ∃ part ∈ parts, a ∈ part := by
  induction parts with
  | nil => simp at h
  | cons part parts ih =>
    cases parts with
    | nil => exact Or.inr ⟨part, List.mem_cons_self, by simpa using h⟩
    | cons next parts =>
      rw [List.intercalate_cons_cons, List.mem_append, List.mem_append, List.mem_singleton] at h
      rcases h with (hpart | hseparator) | hrest
      · exact Or.inr ⟨part, List.mem_cons_self, hpart⟩
      · exact Or.inl hseparator
      · exact (ih hrest).imp_right fun ⟨other, hother, ha⟩ => ⟨other, List.mem_cons_of_mem _ hother, ha⟩

/-- No block is empty. The induction follows the recursion of `splitBlocks`: a record is a block by itself, or
goes to the front of the next one. -/
theorem ne_nil_of_mem_splitBlocks {records block : List Record} (h : block ∈ splitBlocks records) :
    block ≠ [] := by
  induction records generalizing block with
  | nil => cases h
  | cons r rest ih =>
    unfold splitBlocks at h
    split at h
    · rcases List.mem_cons.mp h with rfl | h
      · exact List.cons_ne_nil r []
      · exact ih h
    · split at h
      · rw [List.mem_singleton.mp h]
        exact List.cons_ne_nil r []
      · rename_i first others hsplit
        rcases List.mem_cons.mp h with rfl | h
        · exact List.cons_ne_nil r first
        · exact ih (hsplit ▸ List.mem_cons_of_mem _ h)

/-- The rows of a block. -/
def rowsOf (block : List Record) : List String := block.map recordRow

/-- Between the head and the statistics there are empty lines and rows. -/
theorem eq_empty_or_recordRow_of_mem {blocks : List (List Record)} {line : String}
    (h : line ∈ [""].intercalate (blocks.map rowsOf)) : line = "" ∨ ∃ r, recordRow r = line := by
  rcases mem_intercalate_singleton h with hempty | ⟨rows, hrows, hline⟩
  · exact Or.inl hempty
  · obtain ⟨block, _, rfl⟩ := List.mem_map.mp hrows
    obtain ⟨r, _, hr⟩ := List.mem_map.mp hline
    exact Or.inr ⟨r, hr⟩

/-- The statistics that a listing shows. -/
def statisticsLines (stats : Bool) (blocks : List (List Record)) : List String :=
  if stats then blocks.mapIdx statisticsLine else []

theorem exists_statisticsLine_of_mem {stats : Bool} {blocks : List (List Record)} {line : String}
    (h : line ∈ statisticsLines stats blocks) : ∃ index block, statisticsLine index block = line := by
  unfold statisticsLines at h
  split at h
  · obtain ⟨index, hindex, rfl⟩ := List.mem_mapIdx.mp h
    exact ⟨index, _, rfl⟩
  · cases h

/-- **A listing can be read back**: its lines are the head, the rows with an empty line between two blocks, and the
statistics. Rows and statistics have no line breaks of their own, so `textLines_join` applies. -/
theorem textLines_listing (stats : Bool) (records : List Record) :
    textLines (listing stats records) =
      headRow :: ([""].intercalate ((splitBlocks records).map rowsOf) ++
        statisticsLines stats (splitBlocks records)) ++ [""] := by
  refine textLines_join fun line hline => ?_
  rcases List.mem_append.mp hline with hline | hline
  · rcases List.mem_cons.mp hline with rfl | hline
    · decide +kernel
    · rcases eq_empty_or_recordRow_of_mem hline with rfl | ⟨r, rfl⟩
      · exact List.not_mem_nil
      · exact newline_not_mem_recordRow r
  · obtain ⟨index, block, rfl⟩ := exists_statisticsLine_of_mem hline
    exact newline_not_mem_statisticsLine index block

/-- The blocks that a text shows, each as its rows: what stands between the head and the statistics, cut at the empty
lines. The text ends with a line break, so its last line is empty and no part of it. -/
def listedBlocks (text : String) : List (List String) :=
  (((textLines text).dropLast.tail.takeWhile fun line => !isStatistics line).splitOn "").filter (· ≠ [])

/-- **A listing shows the blocks into which its records are split**, each by the rows of its records. The rows end where
the statistics start, and an empty line is no row, so cutting at empty lines undoes the joining
(`List.splitOn_intercalate`). -/
theorem listedBlocks_listing (stats : Bool) (records : List Record) :
    listedBlocks (listing stats records) = (splitBlocks records).map rowsOf := by
  -- the part before the statistics is all that was joined
  have hrows : ∀ line ∈ [""].intercalate ((splitBlocks records).map rowsOf), (!isStatistics line) = true := by
    intro line hline
    rcases eq_empty_or_recordRow_of_mem hline with rfl | ⟨r, rfl⟩
    · decide
    · simp
  have hstatistics : (statisticsLines stats (splitBlocks records)).takeWhile (fun line => !isStatistics line) = [] := by
    cases hlines : statisticsLines stats (splitBlocks records) with
    | nil => rfl
    | cons line lines =>
      obtain ⟨index, block, rfl⟩ := exists_statisticsLine_of_mem (hlines ▸ List.mem_cons_self)
      simp
  -- no block has an empty line, and none is without lines
  have hempty : ∀ rows ∈ (splitBlocks records).map rowsOf, "" ∉ rows := by
    intro rows hmem hline
    obtain ⟨block, _, rfl⟩ := List.mem_map.mp hmem
    obtain ⟨r, _, hr⟩ := List.mem_map.mp hline
    exact recordRow_ne_empty r hr
  have hne : ∀ rows ∈ (splitBlocks records).map rowsOf, rows ≠ [] := by
    intro rows hmem hnil
    obtain ⟨block, hblock, rfl⟩ := List.mem_map.mp hmem
    exact ne_nil_of_mem_splitBlocks hblock (List.map_eq_nil_iff.mp hnil)
  unfold listedBlocks
  rw [textLines_listing, List.dropLast_concat, List.tail_cons, List.takeWhile_append_of_pos hrows, hstatistics,
    List.append_nil]
  -- no rows at all are cut into one empty part, which is dropped again
  rcases List.eq_nil_or_concat ((splitBlocks records).map rowsOf) with hnil | ⟨_, _, hsome⟩
  · rw [hnil]
    rfl
  · rw [List.splitOn_intercalate "" hempty (by simp [hsome])]
    exact List.filter_eq_self.mpr fun rows hmem => by simpa using hne rows hmem

end CommandLine

end DualIssue
