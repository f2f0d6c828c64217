import DualIssue.Report.Dot

/-!
# Texts on one line

Listings and drawings show instructions in lines of text. A text that is written line by line can be read back by
cutting it at the newlines, as long as what is shown in a line has no newline of its own. Numbers, names and
instructions have none.

* **`textLines`**: the lines of a text.
* **`textLines_join`**: a text written line by line has the lines that were written.
* **`Instruction.newline_not_mem_text`**: every instruction is shown on one line.
-/

namespace DualIssue

/-- The lines of a text. What follows the last newline is a line too, even if nothing does. -/
def textLines (s : String) : List String := (s.toList.splitOn '\n').map String.ofList

/-- A text without a line break is a single line. -/
theorem textLines_of_not_mem {line : String} (h : '\n' ∉ line.toList) : textLines line = [line] := by
  unfold textLines
  rw [List.splitOn_eq_singleton h, List.map_singleton, String.ofList_toList]

/-- A line break divides the lines before it from those after it, whether or not there are more of them on either
side. -/
theorem textLines_append_newline (front rest : String) :
    textLines (front ++ "\n" ++ rest) = textLines front ++ textLines rest := by
  have hchars : (front ++ "\n" ++ rest).toList = front.toList ++ '\n' :: rest.toList := by
    simp
  unfold textLines
  rw [hchars, List.splitOn_append_cons_self, List.map_append]

/-- **A text written line by line has the lines that were written**, and after the last line break an empty one.
Induction on the lines, each of which ends at the first line break after it. -/
theorem textLines_join {lines : List String} (h : ∀ line ∈ lines, '\n' ∉ line.toList) :
    textLines (String.join (lines.map (· ++ "\n"))) = lines ++ [""] := by
  induction lines with
  | nil => rfl
  | cons line lines ih =>
    obtain ⟨hline, hlines⟩ := List.forall_mem_cons.mp h
    rw [List.map_cons, String.join_cons, textLines_append_newline, textLines_of_not_mem hline, ih hlines]
    rfl

/-! ## Numbers

Numbers are written with digits, and negative ones with a sign. -/

/-- Digits are no line breaks. Strong induction, as the digits of a number are those of its quotient and one
more. -/
@[simp] theorem newline_not_mem_toDigits {base : Nat} (hbase : 1 < base) (n : Nat) :
    '\n' ∉ Nat.toDigits base n := by
  have hdigit : ∀ d : Nat, '\n' ≠ d.digitChar := fun d => (Nat.digitChar_ne '\n' rfl).symm
  induction n using Nat.strongRecOn with
  | ind n ih =>
    rw [Nat.toDigits_eq_if hbase]
    split
    · rw [List.mem_singleton]
      exact hdigit n
    · rw [List.mem_append, List.mem_singleton, not_or]
      exact ⟨ih (n / base) (Nat.div_lt_self (by omega) hbase), hdigit (n % base)⟩

@[simp] theorem newline_not_mem_repr (n : Int) : '\n' ∉ n.repr.toList := by
  rw [Int.repr_eq_if]
  split <;> simp [Nat.repr_eq_ofList_toDigits]

@[simp] theorem Dot.newline_not_mem_numberText (n : Option Nat) : '\n' ∉ (numberText n).toList := by
  cases n <;> simp [numberText]

/-! ## Operands

Operands are texts of names, numbers and signs between them, so that each follows from its parts. These lemmas
are for the simplifier. -/

@[simp] theorem Register.newline_not_mem_name (r : Register) : '\n' ∉ r.name.toList := by
  cases r <;> decide

namespace MemOperand

@[simp] theorem newline_not_mem_classText (memClass : MemoryClass) : '\n' ∉ (classText memClass).toList := by
  cases memClass <;> simp [classText]

/-- A displacement is left out, added or subtracted. -/
@[simp] theorem newline_not_mem_dispText (disp : Int32) : '\n' ∉ (dispText disp).toList := by
  unfold dispText
  split
  · simp
  · split <;> simp

@[simp] theorem newline_not_mem_absoluteText (disp : Int32) : '\n' ∉ (absoluteText disp).toList := by
  simp [absoluteText]

@[simp] theorem newline_not_mem_text (mem : MemOperand) : '\n' ∉ mem.text.toList := by
  unfold text addressText
  split <;> simp

end MemOperand

@[simp] theorem Operands.newline_not_mem_text (operands : Operands) : '\n' ∉ operands.text.toList := by
  cases operands <;> simp [text, immText]

/-! ## Instructions

A mnemonic is shown in upper case, so what has to be known about its name is that no character becomes a line
break. -/

namespace Mnemonic

/-- Only a line break is a line break in upper case: lower case letters move by a fixed distance, and everything
else stays. -/
theorem eq_newline_of_toUpper {c : Char} (h : c.toUpper = '\n') : c = '\n' := by
  unfold Char.toUpper at h
  split at h
  · -- only a letter changes, and it becomes a letter
    rename_i hletter
    have hlow : 97 ≤ c.val.toNat := UInt32.le_iff_toNat_le.mp hletter.1
    have hhigh : c.val.toNat ≤ 122 := UInt32.le_iff_toNat_le.mp hletter.2
    have hshift : ('A'.val - 'a'.val).toNat = 4294967264 := by decide
    have hcode : (c.val + ('A'.val - 'a'.val)).toNat = 10 := congrArg (fun c => c.val.toNat) h
    rw [UInt32.toNat_add, hshift] at hcode
    omega
  · exact h

theorem newline_not_mem_upper {s : String} (h : '\n' ∉ s.toList) : '\n' ∉ (upper s).toList := by
  unfold upper
  rw [String.toList_ofList, List.mem_map]
  rintro ⟨c, hc, hupper⟩
  exact h (eq_newline_of_toUpper hupper ▸ hc)

theorem newline_not_mem_name (m : Mnemonic) : '\n' ∉ m.name.toList := by
  cases m <;> simp [name]

theorem newline_not_mem_condName (cond : Cond) : '\n' ∉ cond.name.toList := by
  cases cond <;> decide

@[simp] theorem newline_not_mem_text (m : Mnemonic) : '\n' ∉ m.text.toList := by
  unfold text
  split
  · simpa using newline_not_mem_upper (newline_not_mem_condName _)
  · simpa using newline_not_mem_upper (newline_not_mem_condName _)
  · exact newline_not_mem_upper (newline_not_mem_name m)

end Mnemonic

/-- **Every instruction is shown on one line**, because its mnemonic and its operands are. -/
@[simp] theorem Instruction.newline_not_mem_text (inst : Instruction) : '\n' ∉ inst.text.toList := by
  simp [text]

@[simp] theorem IssuePort.newline_not_mem_text (port : IssuePort) : '\n' ∉ port.text.toList := by
  cases port <;> decide

end DualIssue
