import DualIssue.Json.Parser
import DualIssue.Json.Printer
import DualIssue.Proofs.JsonText
import Mathlib.Data.List.Forall2

/-!
# Reading JSON texts

The tokens of a value are fixed (`Json.tokens`), their spelling is not: `Spells v source` says that the
text is one of those that spell the value. The reader returns the value for every such text
(`parse?_of_spells`), and the text that the printer writes is one of them (`Printable`), as long as all
numerals are integers.
-/

namespace DualIssue.Json

mutual

/-- The tokens of a value: items and fields stand between brackets, with commas between them. -/
def tokens : Json → List Token
  | .arr items => .openArr :: ([.comma].intercalate (itemTokens items) ++ [.closeArr])
  | .obj fields => .openObj :: ([.comma].intercalate (fieldTokens fields) ++ [.closeObj])
  | v => [.scalar v]

/-- The tokens of each item of an array. -/
def itemTokens : List Json → List (List Token)
  | [] => []
  | v :: rest => tokens v :: itemTokens rest

/-- The tokens of each field of an object. -/
def fieldTokens : List (Option String × Json) → List (List Token)
  | [] => []
  | (key, v) :: rest => (.scalar (.str key) :: .colon :: tokens v) :: fieldTokens rest

end

/-- The text spells the tokens of the value, with blanks anywhere around them. -/
def Spells (v : Json) (source : String) : Prop := Text v.tokens source.toList

/-! ### The automaton

The reader is a fold over tokens whose state holds the open containers. What it does with the tokens of a value
does not depend on what comes before or after: in any context, they lead from the phase that expects a value to
the phase in which this value is complete. The three statements for values, items and fields are proved by
one mutual recursion that follows `tokens`. -/

/-- The phase that a list of tokens leads to. -/
def Phase.run (phase : Phase) (tokens : List Token) : Option Phase := tokens.foldlM Phase.step phase

@[simp] theorem Phase.run_nil (phase : Phase) : phase.run [] = some phase := rfl

@[simp] theorem Phase.run_cons (phase : Phase) (token : Token) (tokens : List Token) :
    phase.run (token :: tokens) = (phase.step token).bind fun next => next.run tokens := rfl

/-- Where an array may end, its first item is read as any other. -/
theorem run_firstItem (v : Json) (outer : Context) (rest : List Token) :
    (Phase.firstItem outer).run (v.tokens ++ rest) =
      (Phase.value (.item [] outer)).run (v.tokens ++ rest) := by
  cases v <;> simp [tokens, Phase.step, startValue]

theorem intercalate_itemTokens (v : Json) (items : List Json) :
    ∃ more, [Token.comma].intercalate (itemTokens (v :: items)) = v.tokens ++ more := by
  cases items with
  | nil => exact ⟨[], by simp [itemTokens]⟩
  | cons w rest => exact ⟨_, by rw [itemTokens, itemTokens, List.intercalate_cons_cons]; simp; rfl⟩

theorem intercalate_fieldTokens (key : Option String) (v : Json)
    (fields : List (Option String × Json)) :
    ∃ more, [Token.comma].intercalate (fieldTokens ((key, v) :: fields)) =
      .scalar (.str key) :: more := by
  cases fields with
  | nil => exact ⟨.colon :: v.tokens, by simp [fieldTokens]⟩
  | cons field rest =>
    exact ⟨_, by rw [fieldTokens, fieldTokens, List.intercalate_cons_cons]; simp; rfl⟩

mutual

/-- **The automaton reads a value off the front of the tokens**, in any context. A container is opened and its
items or fields are read by the two statements below; an empty one is closed at once. -/
theorem run_tokens : ∀ (v : Json) (context : Context) (rest : List Token),
    (Phase.value context).run (v.tokens ++ rest) = (Phase.complete v context).run rest
  | .null, context, rest | .bool _, context, rest | .int _, context, rest | .real _, context, rest
  | .str _, context, rest => by simp [tokens, Phase.step, startValue]
  | .arr [], context, rest => by simp [tokens, itemTokens, Phase.step, startValue]
  | .arr (v :: items), context, rest => by
    have hitems := run_itemTokens (v :: items) (by simp) [] context rest
    obtain ⟨more, hmore⟩ := intercalate_itemTokens v items
    rw [hmore, List.append_assoc] at hitems
    simp [tokens, Phase.step, startValue, hmore, run_firstItem, hitems]
  | .obj [], context, rest => by simp [tokens, fieldTokens, Phase.step, startValue]
  | .obj ((key, v) :: fields), context, rest => by
    have hfields := run_fieldTokens ((key, v) :: fields) (by simp) [] context rest
    obtain ⟨more, hmore⟩ := intercalate_fieldTokens key v fields
    rw [hmore, List.cons_append] at hfields
    simpa [tokens, Phase.step, startValue, readKey, hmore] using hfields

/-- Further items of an array, up to its end. Those that have been read are in the context, the latest first. -/
theorem run_itemTokens : ∀ (items : List Json), items ≠ [] → ∀ (before : List Json)
    (outer : Context) (rest : List Token),
    (Phase.value (.item before outer)).run
        ([.comma].intercalate (itemTokens items) ++ .closeArr :: rest) =
      (Phase.complete (.arr (before.reverse ++ items)) outer).run rest
  | [], hne, _, _, _ => absurd rfl hne
  | [v], _, before, outer, rest => by simp [itemTokens, run_tokens v, Phase.step]
  | v :: w :: items, _, before, outer, rest => by
    have hitems := run_itemTokens (w :: items) (by simp) (v :: before) outer rest
    simpa [itemTokens, run_tokens v, Phase.step] using hitems

/-- Further fields of an object, up to its end, in the same way. -/
theorem run_fieldTokens : ∀ (fields : List (Option String × Json)), fields ≠ [] →
    ∀ (before : List (Option String × Json)) (outer : Context) (rest : List Token),
    (Phase.nextKey before outer).run
        ([.comma].intercalate (fieldTokens fields) ++ .closeObj :: rest) =
      (Phase.complete (.obj (before.reverse ++ fields)) outer).run rest
  | [], hne, _, _, _ => absurd rfl hne
  | [(key, v)], _, before, outer, rest => by simp [fieldTokens, run_tokens v, Phase.step, readKey]
  | (key, v) :: field :: fields, _, before, outer, rest => by
    have hfields := run_fieldTokens (field :: fields) (by simp) ((key, v) :: before) outer rest
    simpa [fieldTokens, run_tokens v, Phase.step, readKey] using hfields

end

/-- After a scalar no phase accepts another one. -/
theorem step_scalar_scalar {phase next : Phase} {a : Json} (h : phase.step (.scalar a) = some next)
    (b : Json) : next.step (.scalar b) = none := by
  cases phase with
  | value context | firstItem context =>
    cases h
    cases context <;> rfl
  | firstKey outer | nextKey before outer =>
    cases a <;> cases h
    rfl
  | colon before key outer => cases h
  | complete v context => cases context <;> cases h

/-- A list of tokens that the automaton accepts has no two scalars in a row. Induction on the tokens. -/
theorem apart_of_run {tokens : List Token} {phase last : Phase}
    (h : phase.run tokens = some last) : Apart tokens := by
  induction tokens generalizing phase with
  | nil => exact .nil
  | cons token tokens ih =>
    obtain ⟨next, hstep, hrun⟩ := Option.bind_eq_some_iff.mp h
    refine List.isChain_cons.mpr ⟨?_, ih hrun⟩
    intro second hsecond hscalar
    cases tokens with
    | nil => cases hsecond
    | cons second' rest =>
      cases hsecond
      obtain ⟨_, hstep', _⟩ := Option.bind_eq_some_iff.mp hrun
      cases token with
      | scalar a =>
        cases second with
        | scalar b => cases hstep'.symm.trans (step_scalar_scalar hstep b)
        | _ => rfl
      | _ => cases hscalar

/-- **A text that spells a value is read as this value.** The automaton accepts the tokens of the value
(`run_tokens`), so that no scalar follows another and the scanner finds these tokens in the text
(`Token.scan_eq_of_text`). -/
theorem parse?_of_spells {v : Json} {source : String} (h : v.Spells source) :
    parse? source = some v := by
  have hrun : (Phase.value .top).run v.tokens = some (.complete v .top) := by
    simpa using run_tokens v .top []
  have hscan := Token.scan_eq_of_text h (apart_of_run hrun)
  unfold Phase.run at hrun
  simp only [parse?, hscan, Option.bind_eq_bind, Option.bind_some, ofTokens?, hrun]

/-! ### The printed text

The printer writes one spelling: no blanks, and escapes only where there have to be. Each part of a printed
value is a text of the tokens of this part, and texts can be put one after the other. -/

theorem Text.append {first second : List Token} {cs ds : List Char} (h : Text first cs)
    (h' : Text second ds) : Text (first ++ second) (cs ++ ds) := by
  induction h with
  | nil => exact h'
  | blank hc _ ih => exact .blank hc ih
  | token hword _ ih => simpa using .token hword ih

theorem Token.Spelled.text {token : Token} {word : List Char} (h : token.Spelled word) :
    Text [token] word := by
  simpa using Text.token h .nil

/-- Lists of tokens, each with its text, stay readable with commas between them. Induction on the lists. -/
theorem text_intercalate {parts : List (List Token)} {words : List (List Char)}
    (h : List.Forall₂ Text parts words) :
    Text ([Token.comma].intercalate parts) ([','].intercalate words) := by
  induction h with
  | nil => exact .nil
  | @cons part word parts words hpart hparts ih =>
    cases hparts with
    | nil => simpa using hpart
    | cons _ _ =>
      rw [List.intercalate_cons_cons, List.intercalate_cons_cons]
      exact (hpart.append Token.Spelled.comma.text).append ih

/-- The digits that the printer writes are among those that the grammar knows. -/
theorem hexDigit_mem {n : Nat} (h : n < 16) : (hexDigit n, n) ∈ hexDigits := by
  have hall : ∀ n < 16, (hexDigit n, n) ∈ hexDigits := by decide
  exact hall n h

/-- Escaping a character yields one piece that denotes it. There is one case for each branch of the printer:
five letters, the code unit of a control character, and the character as it is. -/
theorem content_escapeChar (c : Char) {pieces : List Piece} {s cs : List Char}
    (hcontent : Content pieces cs) (hdenotes : Denotes pieces s) :
    ∃ pieces, Content pieces (escapeChar c ++ cs) ∧ Denotes pieces (c :: s) := by
  have hletter : ∀ l, (l, c) ∈ escapes →
      ∃ pieces, Content pieces (['\\', l] ++ cs) ∧ Denotes pieces (c :: s) := fun l hl =>
    ⟨.char c :: pieces, .letter hl hcontent, .char hdenotes⟩
  unfold escapeChar
  split_ifs with hquote hslash hfeed hreturn htab hcontrol
  · subst hquote
    exact hletter '"' (by decide)
  · subst hslash
    exact hletter '\\' (by decide)
  · subst hfeed
    exact hletter 'n' (by decide)
  · subst hreturn
    exact hletter 'r' (by decide)
  · subst htab
    exact hletter 't' (by decide)
  · have hunit := Content.unit (hexDigit_mem (Nat.mod_lt (c.toNat / 4096) (by decide)))
      (hexDigit_mem (Nat.mod_lt (c.toNat / 256) (by decide)))
      (hexDigit_mem (Nat.mod_lt (c.toNat / 16) (by decide)))
      (hexDigit_mem (Nat.mod_lt c.toNat (by decide))) hcontent
    -- four digits are enough for the code of a control character
    have hcode : c.toNat / 4096 % 16 * 0x1000 + c.toNat / 256 % 16 * 0x100 +
        c.toNat / 16 % 16 * 0x10 + c.toNat % 16 = c.toNat := by omega
    rw [hcode] at hunit
    exact ⟨_, hunit, .unit hdenotes⟩
  · exact ⟨_, .plain (Nat.le_of_not_lt hcontrol) hquote hslash hcontent, .char hdenotes⟩

/-- So the escaped text of a string has pieces that denote the string. -/
theorem content_escape (s : List Char) :
    ∃ pieces, Content pieces (s.flatMap escapeChar) ∧ Denotes pieces s := by
  induction s with
  | nil => exact ⟨[], .nil, .nil⟩
  | cons c s ih =>
    obtain ⟨pieces, hcontent, hdenotes⟩ := ih
    exact content_escapeChar c hcontent hdenotes

/-- A value whose printed text spells it. -/
def Printable (v : Json) : Prop := v.Spells v.render

theorem printable_null : Printable .null := Token.Spelled.null.text

theorem printable_bool (b : Bool) : Printable (.bool b) := by
  cases b <;> exact (Token.Spelled.bool _).text

theorem printable_int (n : Int) : Printable (.int n) := (Token.Spelled.int n).text

theorem spelled_quote (s : String) : (Token.scalar (.str (some s))).Spelled (quote (some s)).toList := by
  obtain ⟨pieces, hcontent, hdenotes⟩ := content_escape s.toList
  have htext : DenoteText pieces (some s) := hdenotes
  simpa [quote] using Token.Spelled.str hcontent htext

theorem printable_text (s : String) : Printable (.text s) := (spelled_quote s).text

theorem forall₂_itemTokens {items : List Json} (h : ∀ v ∈ items, Printable v) :
    List.Forall₂ Text (itemTokens items) ((renderItems items).map String.toList) := by
  induction items with
  | nil => exact .nil
  | cons v items ih => exact .cons (h v (.head _)) (ih fun w hw => h w (.tail _ hw))

theorem printable_arr {items : List Json} (h : ∀ v ∈ items, Printable v) : Printable (.arr items) := by
  have hitems := text_intercalate (forall₂_itemTokens h)
  have htext := Text.token .openArr (hitems.append Token.Spelled.closeArr.text)
  simpa [Printable, Spells, tokens, render, String.toList_intercalate] using htext

/-- The printed fields are texts of their tokens: a quoted key, a colon and a value. -/
theorem forall₂_fieldTokens {fields : List (String × Json)} (h : ∀ f ∈ fields, Printable f.2) :
    List.Forall₂ Text (fieldTokens (fields.map fun f => (some f.1, f.2)))
      ((renderFields (fields.map fun f => (some f.1, f.2))).map String.toList) := by
  induction fields with
  | nil => exact .nil
  | cons f fields ih =>
    have hfield := Text.token (spelled_quote f.1) (.token .colon (h f (.head _)))
    refine .cons ?_ (ih fun g hg => h g (.tail _ hg))
    simpa using hfield

theorem printable_object {fields : List (String × Json)} (h : ∀ f ∈ fields, Printable f.2) :
    Printable (.object fields) := by
  have hfields := text_intercalate (forall₂_fieldTokens h)
  have htext := Text.token .openObj (hfields.append Token.Spelled.closeObj.text)
  simpa [Printable, Spells, object, tokens, render, String.toList_intercalate] using htext

end DualIssue.Json
