import DualIssue.Json.Token
import Mathlib.Data.List.Chain
import Mathlib.Data.List.TakeDrop

/-!
# Texts of JSON tokens

A token has many spellings: any character of a string may stand as itself or as an escape, and a
numeral may carry a fraction and an exponent. `Token.Spelled` is the grammar of spellings, and `Text`
the grammar of token lists, with blanks wherever there is room for them. The scanner reads every such
text: `Token.scan_eq_of_text` returns its tokens if no scalar follows a scalar, which is what tells
the end of a numeral from its continuation.
-/

namespace DualIssue.Json

/-! ### Strings

A string is read in two steps, and so it is described in two: `Content` cuts the characters between the quotes
into pieces, and `Denotes` says which characters the pieces stand for. The second step is where two code units
make one character. A string whose pieces denote nothing, because of a lone surrogate, is still a token. -/

/-- The hexadecimal digits, in either case, and their values. -/
def hexDigits : List (Char × Nat) :=
  "0123456789abcdef".toList.zipIdx ++ "ABCDEF".toList.zipIdx 10

/-- The letters that may follow a backslash, each with the character it stands for. -/
def escapes : List (Char × Char) :=
  [('"', '"'), ('\\', '\\'), ('/', '/'), ('b', '\x08'), ('f', '\x0c'), ('n', '\n'), ('r', '\r'),
   ('t', '\t')]

/-- The characters between the quotes of a string, and the pieces they are. -/
inductive Content : List Piece → List Char → Prop where
  | nil : Content [] []
  | plain {c : Char} {pieces : List Piece} {cs : List Char} (hprint : 0x20 ≤ c.toNat)
      (hquote : c ≠ '"') (hslash : c ≠ '\\') (h : Content pieces cs) :
      Content (.char c :: pieces) (c :: cs)
  | letter {l c : Char} {pieces : List Piece} {cs : List Char} (hescape : (l, c) ∈ escapes)
      (h : Content pieces cs) : Content (.char c :: pieces) ('\\' :: l :: cs)
  | unit {a b c d : Char} {i j k l : Nat} {pieces : List Piece} {cs : List Char}
      (ha : (a, i) ∈ hexDigits) (hb : (b, j) ∈ hexDigits) (hc : (c, k) ∈ hexDigits)
      (hd : (d, l) ∈ hexDigits) (h : Content pieces cs) :
      Content (.unit (i * 0x1000 + j * 0x100 + k * 0x10 + l) :: pieces)
        ('\\' :: 'u' :: a :: b :: c :: d :: cs)

/-- The characters that pieces denote. A character beyond the first 65536 takes two code units. -/
inductive Denotes : List Piece → List Char → Prop where
  | nil : Denotes [] []
  | char {c : Char} {pieces : List Piece} {s : List Char} (h : Denotes pieces s) :
      Denotes (.char c :: pieces) (c :: s)
  | unit {c : Char} {pieces : List Piece} {s : List Char} (h : Denotes pieces s) :
      Denotes (.unit c.toNat :: pieces) (c :: s)
  | pair {c : Char} {hi lo : Nat} {pieces : List Piece} {s : List Char} (hhi : hi < 0x400)
      (hlo : lo < 0x400) (hc : c.toNat = 0x10000 + hi * 0x400 + lo) (h : Denotes pieces s) :
      Denotes (.unit (0xD800 + hi) :: .unit (0xDC00 + lo) :: pieces) (c :: s)

/-- The pieces of a string denote a text, or none at all. -/
def DenoteText (pieces : List Piece) : Option String → Prop
  | some s => Denotes pieces s.toList
  | none => ∀ s, ¬ Denotes pieces s

/-- The digits of the table have their values. The table is small enough to be evaluated. -/
theorem hexDigit?_of_mem {c : Char} {n : Nat} (h : (c, n) ∈ hexDigits) :
    hexDigit? c = some n ∧ n < 16 := by
  have hall : ∀ p ∈ hexDigits, hexDigit? p.1 = some p.2 ∧ p.2 < 16 := by decide
  exact hall (c, n) h

theorem codeUnit?_of_mem {a b c d : Char} {i j k l : Nat} (ha : (a, i) ∈ hexDigits)
    (hb : (b, j) ∈ hexDigits) (hc : (c, k) ∈ hexDigits) (hd : (d, l) ∈ hexDigits) :
    codeUnit? a b c d = some (i * 0x1000 + j * 0x100 + k * 0x10 + l) ∧
      i * 0x1000 + j * 0x100 + k * 0x10 + l < 0x10000 := by
  obtain ⟨ha, hi⟩ := hexDigit?_of_mem ha
  obtain ⟨hb, hj⟩ := hexDigit?_of_mem hb
  obtain ⟨hc, hk⟩ := hexDigit?_of_mem hc
  obtain ⟨hd, hl⟩ := hexDigit?_of_mem hd
  constructor
  · simp only [codeUnit?, ha, hb, hc, hd, Option.bind_eq_bind, Option.bind_some, Option.pure_def,
      Option.some_inj]
    omega
  · omega

/-- The letters of the table are the escapes of one letter, and the letter of a code unit is not among them. -/
theorem escaped?_of_mem {l c : Char} (h : (l, c) ∈ escapes) : escaped? l = some c ∧ l ≠ 'u' := by
  have hall : ∀ p ∈ escapes, escaped? p.1 = some p.2 ∧ p.1 ≠ 'u' := by decide
  exact hall (l, c) h

/-- A quoted string is read to its end, whatever follows the closing quote. Induction on the grammar of its
content, with the pieces that have been read before. -/
theorem readPieces_of_content {pieces : List Piece} {cs : List Char} (h : Content pieces cs)
    (acc : List Piece) (rest : List Char) :
    readPieces acc (cs ++ '"' :: rest) = some (acc.reverse ++ pieces, rest) := by
  induction h generalizing acc with
  | nil => simp [readPieces]
  | @plain c _ _ hprint hquote hslash _ ih =>
    have hstep := ih (.char c :: acc)
    simp [readPieces, hslash, Nat.not_lt.mpr hprint, hstep]
  | @letter l c _ _ hescape _ ih =>
    have hstep := ih (.char c :: acc)
    obtain ⟨hletter, hne⟩ := escaped?_of_mem hescape
    simp [readPieces, hletter, hne, hstep]
  | unit ha hb hc hd _ ih =>
    simp [readPieces, (codeUnit?_of_mem ha hb hc hd).1, ih]

theorem Content.unit_lt {pieces : List Piece} {cs : List Char} (h : Content pieces cs) :
    ∀ code, .unit code ∈ pieces → code < 0x10000 := by
  induction h with
  | nil => simp
  | plain _ _ _ _ ih => simpa using ih
  | letter _ _ ih => simpa using ih
  | unit ha hb hc hd _ ih =>
    intro code hcode
    rcases List.mem_cons.mp hcode with heq | hmem
    · cases heq
      exact (codeUnit?_of_mem ha hb hc hd).2
    · exact ih code hmem

/-- No character is a surrogate. -/
theorem not_surrogate (c : Char) :
    isHighSurrogate c.toNat = false ∧ isLowSurrogate c.toNat = false := by
  have hvalid := c.valid
  simp only [isHighSurrogate, isLowSurrogate, decide_eq_false_iff_not]
  change c.toNat < 0xD800 ∨ 0xDFFF < c.toNat ∧ c.toNat < 0x110000 at hvalid
  omega

/-- A code unit that is no surrogate is a character by itself, whatever comes after it. -/
theorem joinPieces_unit {code : Nat} (hhigh : isHighSurrogate code = false)
    (hlow : isLowSurrogate code = false) (acc : List Char) (rest : List Piece) :
    joinPieces acc (.unit code :: rest) = joinPieces (Char.ofNat code :: acc) rest := by
  cases rest with
  | nil => simp [joinPieces, hhigh, hlow]
  | cons piece rest => cases piece <;> simp [joinPieces, hhigh, hlow]

theorem pairChar_add (hi lo : Nat) :
    pairChar (0xD800 + hi) (0xDC00 + lo) = Char.ofNat (0x10000 + hi * 0x400 + lo) := by
  have hcode : (0xD800 + hi - 0xD800) * 0x400 + (0xDC00 + lo - 0xDC00) + 0x10000
      = 0x10000 + hi * 0x400 + lo := by omega
  rw [pairChar, hcode]

/-- Pieces that denote characters are joined to them. Induction on how they denote; a single code unit is never
a surrogate, because no character is one. -/
theorem joinPieces_of_denotes {pieces : List Piece} {s : List Char} (h : Denotes pieces s)
    (acc : List Char) : joinPieces acc pieces = some (acc.reverse ++ s) := by
  induction h generalizing acc with
  | nil => simp [joinPieces]
  | char _ ih => simp [joinPieces, ih]
  | @unit c _ _ _ ih =>
    obtain ⟨hhigh, hlow⟩ := not_surrogate c
    simp [joinPieces_unit hhigh hlow, ih]
  | @pair c hi lo pieces s hhi hlo hc _ ih =>
    have hhigh : isHighSurrogate (0xD800 + hi) = true := by simp [isHighSurrogate]; omega
    have hlow : isLowSurrogate (0xDC00 + lo) = true := by simp [isLowSurrogate]; omega
    have hpair : pairChar (0xD800 + hi) (0xDC00 + lo) = c := by
      rw [pairChar_add, ← hc, Char.ofNat_toNat]
    simp [joinPieces, hhigh, hlow, hpair, ih]

/-- A code that is no surrogate and within range is the code of a character. -/
theorem toNat_ofNat_of_not_surrogate {code : Nat} (hlt : code < 0x110000)
    (hhigh : ¬ isHighSurrogate code = true) (hlow : ¬ isLowSurrogate code = true) :
    (Char.ofNat code).toNat = code := by
  simp only [isHighSurrogate, isLowSurrogate, decide_eq_true_eq] at hhigh hlow
  have hvalid : code.isValidChar := by
    show code < 0xD800 ∨ 0xDFFF < code ∧ code < 0x110000
    omega
  rw [Char.ofNat, dif_pos hvalid]
  rfl

/-- So a code unit that is no surrogate denotes the character with this code. -/
theorem Denotes.ofNat {code : Nat} {pieces : List Piece} {s : List Char} (h : Denotes pieces s)
    (hlt : code < 0x10000) (hhigh : ¬ isHighSurrogate code = true)
    (hlow : ¬ isLowSurrogate code = true) :
    Denotes (.unit code :: pieces) (Char.ofNat code :: s) := by
  have hunit := Denotes.unit (c := Char.ofNat code) h
  rwa [toNat_ofNat_of_not_surrogate (by omega) hhigh hlow] at hunit

/-- Pieces that can be joined denote what they are joined to, as code units have 16 bits. The induction is the
recursion of `joinPieces`; three of its branches fail. -/
theorem denotes_of_joinPieces {pieces : List Piece} {acc s : List Char}
    (hcodes : ∀ code, .unit code ∈ pieces → code < 0x10000)
    (h : joinPieces acc pieces = some s) : ∃ t, s = acc.reverse ++ t ∧ Denotes pieces t := by
  fun_induction joinPieces acc pieces with
  | case1 acc =>
    cases h
    exact ⟨[], by simp, .nil⟩
  | case2 acc c rest ih =>
    obtain ⟨t, rfl, ht⟩ := ih (fun code hcode => hcodes code (.tail _ hcode)) h
    exact ⟨c :: t, by simp, .char ht⟩
  | case3 acc high low rest hhigh hlow ih =>
    obtain ⟨t, rfl, ht⟩ := ih (fun code hcode => hcodes code (.tail _ (.tail _ hcode))) h
    simp only [isHighSurrogate, isLowSurrogate, decide_eq_true_eq] at hhigh hlow
    -- the two surrogates are the halves of a code beyond the first 65536
    obtain ⟨hi, rfl⟩ := Nat.exists_eq_add_of_le hhigh.1
    obtain ⟨lo, rfl⟩ := Nat.exists_eq_add_of_le hlow.1
    refine ⟨pairChar (0xD800 + hi) (0xDC00 + lo) :: t, by simp, .pair (by omega) (by omega) ?_ ht⟩
    rw [pairChar_add]
    apply toNat_ofNat_of_not_surrogate
    · omega
    · simp [isHighSurrogate]; omega
    · simp [isLowSurrogate]; omega
  | case4 | case5 | case7 => cases h
  | case6 acc code low rest hhigh hlow ih =>
    obtain ⟨t, rfl, ht⟩ := ih (fun code hcode => hcodes code (.tail _ hcode)) h
    exact ⟨Char.ofNat code :: t, by simp, ht.ofNat (hcodes code (.head _)) hhigh hlow⟩
  | case8 acc code rest _ hsurrogate ih =>
    obtain ⟨t, rfl, ht⟩ := ih (fun code hcode => hcodes code (.tail _ hcode)) h
    rw [Bool.or_eq_true, not_or] at hsurrogate
    exact ⟨Char.ofNat code :: t, by simp,
      ht.ofNat (hcodes code (.head _)) hsurrogate.1 hsurrogate.2⟩

/-- The text of the pieces, or none if they denote nothing. The second case needs the converse,
`denotes_of_joinPieces`. -/
theorem piecesText?_of_denoteText {pieces : List Piece} {cs : List Char} {text : Option String}
    (hcontent : Content pieces cs) (h : DenoteText pieces text) : piecesText? pieces = text := by
  cases text with
  | some s => simp [piecesText?, joinPieces_of_denotes h []]
  | none =>
    cases hjoin : joinPieces [] pieces with
    | none => simp [piecesText?, hjoin]
    | some s =>
      obtain ⟨t, _, ht⟩ := denotes_of_joinPieces hcontent.unit_lt hjoin
      exact absurd ht (h t)

/-! ### Numerals

A numeral is a sign, a whole part, a fraction and an exponent, and each reader takes as much as it can. That it
stops where its part ends is a condition on the next character, so the parts are read with what follows them:
`Stops` says that the numeral is over, and the two lemmas on heads pass it on from right to left. -/

/-- One digit or more. -/
def Digits (cs : List Char) : Prop := cs ≠ [] ∧ ∀ c ∈ cs, c.isDigit = true

/-- Nothing, or a point with digits. -/
inductive Fraction : List Char → Prop where
  | absent : Fraction []
  | digits {ds : List Char} (h : Digits ds) : Fraction ('.' :: ds)

/-- Nothing, or a mark with digits, between them a sign or none. -/
inductive Exponent : List Char → Prop where
  | absent : Exponent []
  | digits {mark : Char} {sign ds : List Char} (hmark : mark ∈ ['e', 'E'])
      (hsign : sign ∈ [[], ['+'], ['-']]) (h : Digits ds) : Exponent (mark :: (sign ++ ds))

/-- A numeral with the whole part `n`. -/
def numeral (negative : Bool) (n : Nat) (fraction exponent : List Char) : List Char :=
  (if negative then ['-'] else []) ++ Nat.toDigits 10 n ++ fraction ++ exponent

/-- The characters do not go on with a numeral that stands in front of them. -/
def Stops (cs : List Char) : Prop := ∀ c ∈ cs.head?, c.isDigit = false ∧ c ∉ ['.', 'e', 'E']

/-- The text of an integer is a numeral with neither fraction nor exponent. -/
theorem toList_toString (n : Int) : (toString n).toList = numeral (n < 0) n.natAbs [] [] := by
  rw [Int.toString_eq_repr, Int.repr_eq_if]
  by_cases h : 0 ≤ n
  · have habs : n.toNat = n.natAbs := by omega
    simp [numeral, h, Int.not_lt.mpr h, habs, Nat.repr_eq_ofList_toDigits]
  · have habs : (-n).toNat = n.natAbs := by omega
    simp [numeral, h, Int.not_le.mp h, habs, Nat.repr_eq_ofList_toDigits]

theorem digitsValue_toDigits (n : Nat) : digitsValue (Nat.toDigits 10 n) = n := by
  have h := Nat.ofDigitChars_ten_toDigits (n := n)
  simpa only [digitsValue, Nat.ofDigitChars_eq_foldl, Nat.mul_comm] using h

/-- A number other than zero has no leading zero. Strong induction, since the first digit is that of the number
without its last. -/
theorem head?_toDigits_ne_zero {n : Nat} (h : 0 < n) : (Nat.toDigits 10 n).head? ≠ some '0' := by
  induction n using Nat.strongRecOn with
  | ind n ih =>
    rw [Nat.toDigits_eq_if (by decide)]
    by_cases hlt : n < 10
    · simp [hlt]
      omega
    · have hquotient := ih (n / 10) (by omega) (by omega)
      obtain ⟨c, cs, hcs⟩ := List.exists_cons_of_ne_nil (@Nat.toDigits_ne_nil (n / 10) 10)
      rw [hcs] at hquotient
      simpa [hlt, hcs] using hquotient

theorem span_digits {ds rest : List Char} (hds : ∀ c ∈ ds, c.isDigit = true)
    (hrest : ∀ c ∈ rest.head?, c.isDigit = false) :
    (ds ++ rest).span Char.isDigit = (ds, rest) := by
  rw [List.span_eq_takeWhile_dropWhile, List.takeWhile_append_of_pos hds,
    List.dropWhile_append_of_pos hds]
  cases rest with
  | nil => simp
  | cons c rest => simp [hrest c rfl]

/-- The whole part is read up to its end. A single zero is allowed, a leading one does not occur. -/
theorem readWhole_toDigits (n : Nat) {rest : List Char}
    (hrest : ∀ c ∈ rest.head?, c.isDigit = false) :
    readWhole (Nat.toDigits 10 n ++ rest) = some (Nat.toDigits 10 n, rest) := by
  have hdigits : ∀ c ∈ Nat.toDigits 10 n, c.isDigit = true := fun c hc =>
    Nat.isDigit_of_mem_toDigits (by decide) (by decide) hc
  rw [readWhole, span_digits hdigits hrest]
  rcases Nat.eq_zero_or_pos n with rfl | hpos
  · rfl
  · have hne := @Nat.toDigits_ne_nil n 10
    have hhead := head?_toDigits_ne_zero hpos
    split
    · next heq => exact absurd (Prod.mk.inj heq).1 hne
    · next heq => simp [(Prod.mk.inj heq).1] at hhead
    · next heq => rw [heq]

theorem readFraction_spelled {fraction rest : List Char} (h : Fraction fraction)
    (hrest : ∀ c ∈ rest.head?, c.isDigit = false ∧ c ≠ '.') :
    readFraction (fraction ++ rest) = some (fraction, rest) := by
  cases h with
  | absent =>
    cases rest with
    | nil => rfl
    | cons c rest => simp [readFraction, (hrest c rfl).2]
  | digits h =>
    have hspan := span_digits h.2 fun c hc => (hrest c hc).1
    simp only [readFraction, List.cons_append, hspan, List.isEmpty_iff, h.1, if_false]

theorem readExponentDigits_spelled {mark ds rest : List Char} (h : Digits ds)
    (hrest : ∀ c ∈ rest.head?, c.isDigit = false) :
    readExponentDigits mark (ds ++ rest) = some (mark ++ ds, rest) := by
  simp only [readExponentDigits, span_digits h.2 hrest, List.isEmpty_iff, h.1, if_false]

/-- The exponent is read up to its end, or found to be absent. One case for each of the three signs; without a
sign the first digit must not be taken for one. -/
theorem readExponent_spelled {exponent rest : List Char} (h : Exponent exponent) (hrest : Stops rest) :
    readExponent (exponent ++ rest) = some (exponent, rest) := by
  cases h with
  | absent =>
    cases rest with
    | nil => rfl
    | cons c rest =>
      have hc := (hrest c rfl).2
      simp_all [readExponent]
  | @digits mark sign ds hmark hsign h =>
    have hdigits : ∀ prelude, readExponentDigits prelude (ds ++ rest) = some (prelude ++ ds, rest) :=
      fun _ => readExponentDigits_spelled h fun c hc => (hrest c hc).1
    have hmark' : mark = 'e' ∨ mark = 'E' := by simpa using hmark
    simp only [List.mem_cons, List.not_mem_nil, or_false] at hsign
    rcases hsign with rfl | rfl | rfl
    · -- without a sign the first digit comes next, and it is neither plus nor minus
      obtain ⟨d, ds, rfl⟩ := List.exists_cons_of_ne_nil h.1
      have hd := h.2 d (.head _)
      have hplus : d ≠ '+' := by rintro rfl; cases hd
      have hminus : d ≠ '-' := by rintro rfl; cases hd
      have hstep := hdigits [mark]
      simp only [List.cons_append] at hstep
      simp [readExponent, hmark', hplus, hminus, hstep]
    · simp [readExponent, hmark', hdigits]
    · simp [readExponent, hmark', hdigits]

/-- What follows the whole part of a numeral is no digit, and what follows its fraction no point. -/
theorem Exponent.head_append {exponent rest : List Char} (h : Exponent exponent)
    (hrest : Stops rest) : ∀ c ∈ (exponent ++ rest).head?, c.isDigit = false ∧ c ≠ '.' := by
  cases h with
  | absent =>
    intro c hc
    obtain ⟨hdigit, hmark⟩ := hrest c hc
    simp only [List.mem_cons, not_or] at hmark
    exact ⟨hdigit, hmark.1⟩
  | digits hmark _ _ =>
    have hall : ['e', 'E'].all (fun c => !c.isDigit && c ≠ '.') = true := by decide
    simpa using List.all_eq_true.mp hall _ hmark

/-- Neither a fraction nor its absence goes on with the digits before it. -/
theorem Fraction.head_append {fraction rest : List Char} (h : Fraction fraction)
    (hrest : ∀ c ∈ rest.head?, c.isDigit = false) :
    ∀ c ∈ (fraction ++ rest).head?, c.isDigit = false := by
  cases h with
  | absent => simpa using hrest
  | digits _ => simp

/-- The value of a numeral. -/
def numeralValue (negative : Bool) (n : Nat) (fraction exponent : List Char) : Json :=
  if fraction = [] ∧ exponent = [] ∧ ¬ (negative = true ∧ n = 0) then
    .int (if negative then -n else n)
  else .real (String.ofList (numeral negative n fraction exponent))

/-- After its sign a numeral is read part by part, with the lemmas above. -/
theorem readUnsigned_numeral (negative : Bool) (n : Nat) {fraction exponent rest : List Char}
    (hfraction : Fraction fraction) (hexponent : Exponent exponent) (hrest : Stops rest) :
    readUnsigned negative (Nat.toDigits 10 n ++ (fraction ++ (exponent ++ rest))) =
      some (numeralValue negative n fraction exponent, rest) := by
  have hmark := hexponent.head_append hrest
  have hpoint := hfraction.head_append fun c hc => (hmark c hc).1
  simp only [readUnsigned, readWhole_toDigits n hpoint, readFraction_spelled hfraction hmark,
    readExponent_spelled hexponent hrest, digitsValue_toDigits, Option.bind_eq_bind,
    Option.bind_some, numeralValue, numeral]
  split <;> split <;> simp_all

theorem exists_numeral_eq_cons (negative : Bool) (n : Nat) (fraction exponent : List Char) :
    ∃ c cs, numeral negative n fraction exponent = c :: cs ∧ (c = '-' ∨ c.isDigit = true) := by
  cases negative with
  | true => exact ⟨'-', _, rfl, Or.inl rfl⟩
  | false =>
    obtain ⟨d, ds, hds⟩ := List.exists_cons_of_ne_nil (@Nat.toDigits_ne_nil n 10)
    have hmem : d ∈ Nat.toDigits 10 n := by simp [hds]
    refine ⟨d, ds ++ fraction ++ exponent, by simp [numeral, hds], Or.inr ?_⟩
    exact Nat.isDigit_of_mem_toDigits (by decide) (by decide) hmem

/-- A numeral is read to its end if what follows does not go on with it. Without a sign its first character is a
digit, which is not taken for one. -/
theorem readNumeral_numeral (negative : Bool) (n : Nat) {fraction exponent rest : List Char}
    (hfraction : Fraction fraction) (hexponent : Exponent exponent) (hrest : Stops rest) :
    readNumeral (numeral negative n fraction exponent ++ rest) =
      some (numeralValue negative n fraction exponent, rest) := by
  have hunsigned := readUnsigned_numeral negative n hfraction hexponent hrest
  cases negative with
  | true => simpa [readNumeral, numeral] using hunsigned
  | false =>
    obtain ⟨d, ds, hds⟩ := List.exists_cons_of_ne_nil (@Nat.toDigits_ne_nil n 10)
    have hmem : d ∈ Nat.toDigits 10 n := by simp [hds]
    have hsign : d ≠ '-' := by
      rintro rfl
      cases Nat.isDigit_of_mem_toDigits (by decide) (by decide) hmem
    simpa [readNumeral, numeral, hds, hsign] using hunsigned

/-! ### Tokens

The spellings of a token, and texts as sequences of them with blanks in between. The scanner looks at the first
character of a token to see what it is, and reads it to its end. For scalars this needs that what follows is no
part of them, which holds if the next token is no scalar or if there is a blank. -/

/-- Does the token carry a value of its own? -/
def Token.isScalar : Token → Bool
  | .scalar _ => true
  | _ => false

/-- The spellings of a token. An integer has one; a string may write its characters in several ways. -/
inductive Token.Spelled : Token → List Char → Prop where
  | openArr : Spelled .openArr ['[']
  | closeArr : Spelled .closeArr [']']
  | openObj : Spelled .openObj ['\x7b']
  | closeObj : Spelled .closeObj ['\x7d']
  | comma : Spelled .comma [',']
  | colon : Spelled .colon [':']
  | null : Spelled (.scalar .null) ['n', 'u', 'l', 'l']
  | bool (b : Bool) : Spelled (.scalar (.bool b)) (toString b).toList
  | int (n : Int) : Spelled (.scalar (.int n)) (toString n).toList
  | real {negative : Bool} {n : Nat} {fraction exponent : List Char} (hfraction : Fraction fraction)
      (hexponent : Exponent exponent)
      (hreal : fraction ≠ [] ∨ exponent ≠ [] ∨ negative = true ∧ n = 0) :
      Spelled (.scalar (.real (String.ofList (numeral negative n fraction exponent))))
        (numeral negative n fraction exponent)
  | str {pieces : List Piece} {text : Option String} {cs : List Char} (hcontent : Content pieces cs)
      (htext : DenoteText pieces text) : Spelled (.scalar (.str text)) ('"' :: (cs ++ ['"']))

/-- A sign or a digit starts a numeral: none of the other branches of the scanner begins with such a character. -/
theorem next?_of_sign_or_digit {c : Char} (hc : c = '-' ∨ c.isDigit = true) (cs : List Char) :
    Token.next? (c :: cs) = (readNumeral (c :: cs)).map fun p => (.scalar p.1, p.2) := by
  unfold Token.next?
  split
  case h_11 => split <;> simp_all
  all_goals
    next heq =>
      cases heq
      exact absurd hc (by decide)

/-- So a numeral in front is read as a scalar. -/
theorem next?_numeral (negative : Bool) (n : Nat) {fraction exponent rest : List Char}
    (hfraction : Fraction fraction) (hexponent : Exponent exponent) (hrest : Stops rest) :
    Token.next? (numeral negative n fraction exponent ++ rest) =
      some (.scalar (numeralValue negative n fraction exponent), rest) := by
  have hread := readNumeral_numeral negative n hfraction hexponent hrest
  obtain ⟨c, cs, hcs, hc⟩ := exists_numeral_eq_cons negative n fraction exponent
  rw [hcs, List.cons_append] at hread ⊢
  rw [next?_of_sign_or_digit hc, hread, Option.map_some]

/-- The scanner reads a spelled token off the front of the characters. One case for each kind of token; an
integer is the numeral of its text, and what is not an integer has a fraction, an exponent or the sign of a
zero. -/
theorem Token.Spelled.next? {token : Token} {word rest : List Char} (h : token.Spelled word)
    (hrest : token.isScalar = true → Stops rest) : Token.next? (word ++ rest) = some (token, rest) := by
  cases h with
  | openArr | closeArr | openObj | closeObj | comma | colon | null => rfl
  | bool b => cases b <;> rfl
  | int n =>
    -- the sign and the absolute value make the integer again
    have hvalue : numeralValue (n < 0) n.natAbs [] [] = .int n := by
      have hnonzero : ¬ (decide (n < 0) = true ∧ n.natAbs = 0) := by simp; omega
      rw [numeralValue, if_pos ⟨rfl, rfl, hnonzero⟩]
      congr 1
      by_cases hneg : n < 0
      · rw [if_pos (decide_eq_true hneg)]
        omega
      · rw [if_neg (by simpa using hneg)]
        omega
    rw [toList_toString, next?_numeral _ _ .absent .absent (hrest rfl), hvalue]
  | real hfraction hexponent hreal =>
    rw [next?_numeral _ _ hfraction hexponent (hrest rfl), numeralValue, if_neg]
    rintro ⟨hnofraction, hnoexponent, hnonzero⟩
    rcases hreal with h | h | h
    · exact h hnofraction
    · exact h hnoexponent
    · exact hnonzero h
  | str hcontent htext =>
    have hpieces := readPieces_of_content hcontent [] rest
    simp [Token.next?, hpieces, piecesText?_of_denoteText hcontent htext]

/-- The characters that may stand between tokens. -/
def blanks : List Char := [' ', '\t', '\n', '\r']

/-- The characters of a list of tokens, with blanks around and between them. -/
inductive Text : List Token → List Char → Prop where
  | nil : Text [] []
  | blank {c : Char} {tokens : List Token} {cs : List Char} (hc : c ∈ blanks)
      (h : Text tokens cs) : Text tokens (c :: cs)
  | token {token : Token} {word cs : List Char} {tokens : List Token} (hword : token.Spelled word)
      (h : Text tokens cs) : Text (token :: tokens) (word ++ cs)

/-- A blank, a bracket, a comma or a colon. -/
def separators : List Char := blanks ++ ['[', ']', '\x7b', '\x7d', ',', ':']

/-- A numeral is over where a blank, a bracket, a comma or a colon stands. -/
theorem stops_of_separator {c : Char} (h : c ∈ separators) (cs : List Char) : Stops (c :: cs) := by
  have hall : separators.all (fun c => !c.isDigit && c ∉ ['.', 'e', 'E']) = true := by decide
  intro c' hc'
  cases hc'
  simpa using List.all_eq_true.mp hall c h

theorem Token.Spelled.eq_separator {token : Token} {word : List Char} (h : token.Spelled word)
    (hscalar : token.isScalar = false) : ∃ c ∈ separators, word = [c] := by
  cases h with
  | openArr | closeArr | openObj | closeObj | comma | colon => exact ⟨_, by decide, rfl⟩
  | null | bool | int | real | str => cases hscalar

/-- Text that starts with no scalar ends any numeral before it. -/
theorem Text.stops {tokens : List Token} {cs : List Char} (h : Text tokens cs)
    (hhead : ∀ token ∈ tokens.head?, token.isScalar = false) : Stops cs := by
  cases h with
  | nil => intro c hc; cases hc
  | blank hc _ => exact stops_of_separator (List.mem_append_left _ hc) _
  | token hword _ =>
    obtain ⟨c, hc, rfl⟩ := hword.eq_separator (hhead _ rfl)
    exact stops_of_separator hc _

/-- No token starts with a blank, and none is empty. -/
theorem Token.Spelled.eq_cons {token : Token} {word : List Char} (h : token.Spelled word) :
    ∃ c cs, word = c :: cs ∧ isBlank c = false := by
  have hnumeral : ∀ negative n fraction exponent, ∃ c cs,
      numeral negative n fraction exponent = c :: cs ∧ isBlank c = false := by
    intro negative n fraction exponent
    obtain ⟨c, cs, hcs, hc⟩ := exists_numeral_eq_cons negative n fraction exponent
    refine ⟨c, cs, hcs, ?_⟩
    by_contra hblank
    simp only [isBlank, Bool.not_eq_false, Bool.or_eq_true, decide_eq_true_eq] at hblank
    rcases hblank with ((rfl | rfl) | rfl) | rfl <;> exact absurd hc (by decide)
  cases h with
  | openArr | closeArr | openObj | closeObj | comma | colon | null | str => exact ⟨_, _, rfl, by decide⟩
  | bool b => cases b <;> exact ⟨_, _, rfl, by decide⟩
  | int n => exact toList_toString n ▸ hnumeral _ _ _ _
  | real _ _ _ => exact hnumeral _ _ _ _

/-- A text has no more tokens than characters, which is why its length is a bound for the scanner. -/
theorem Text.length_le {tokens : List Token} {cs : List Char} (h : Text tokens cs) :
    tokens.length ≤ cs.length := by
  induction h with
  | nil => simp
  | blank _ _ ih => simp; omega
  | token hword _ ih =>
    obtain ⟨c, cs, rfl, _⟩ := hword.eq_cons
    simp
    omega

/-- No scalar directly follows a scalar. -/
def Apart (tokens : List Token) : Prop :=
  tokens.IsChain fun first second => first.isScalar = true → second.isScalar = false

theorem scanFrom_blank {c : Char} (hc : c ∈ blanks) (fuel : Nat) (acc : List Token)
    (cs : List Char) : Token.scanFrom fuel acc (c :: cs) = Token.scanFrom fuel acc cs := by
  have hall : blanks.all isBlank = true := by decide
  have hblank := List.all_eq_true.mp hall c hc
  unfold Token.scanFrom
  rw [List.dropWhile_cons_of_pos hblank]

theorem scanFrom_token {token : Token} {word : List Char} (hword : token.Spelled word)
    {rest : List Char} (hrest : token.isScalar = true → Stops rest) (fuel : Nat) (acc : List Token) :
    Token.scanFrom (fuel + 1) acc (word ++ rest) = Token.scanFrom fuel (token :: acc) rest := by
  have hnext := hword.next? hrest
  obtain ⟨c, cs, rfl, hblank⟩ := hword.eq_cons
  have hdrop : (c :: cs ++ rest).dropWhile isBlank = c :: cs ++ rest :=
    List.dropWhile_cons_of_neg (by simp [hblank])
  rw [List.cons_append] at hnext hdrop ⊢
  rw [Token.scanFrom, hdrop]
  simp only [hnext]

/-- The scanner goes through the whole text. Induction on the text, with the tokens that have been read before
and with any bound that is large enough. -/
theorem scanFrom_of_text {tokens : List Token} {cs : List Char} (h : Text tokens cs)
    (hapart : Apart tokens) {fuel : Nat} (hfuel : tokens.length ≤ fuel) (acc : List Token) :
    Token.scanFrom fuel acc cs = some (acc.reverse ++ tokens) := by
  induction h generalizing fuel acc with
  | nil => cases fuel <;> simp [Token.scanFrom]
  | blank hc _ ih => rw [scanFrom_blank hc, ih hapart hfuel]
  | @token token word cs tokens hword htext ih =>
    obtain ⟨hnext, hapart⟩ := List.isChain_cons.mp hapart
    have hrest : token.isScalar = true → Stops cs := fun hscalar =>
      htext.stops fun next hmem => hnext next hmem hscalar
    cases fuel with
    | zero => simp at hfuel
    | succ fuel =>
      rw [scanFrom_token hword hrest, ih hapart (Nat.le_of_succ_le_succ hfuel)]
      simp

/-- **The scanner finds the tokens of a text**, however they are spelled and spaced. Its bound is the number of
characters, which is enough (`Text.length_le`). -/
theorem Token.scan_eq_of_text {tokens : List Token} {cs : List Char} (h : Text tokens cs)
    (hapart : Apart tokens) : Token.scan cs = some tokens := by
  rw [Token.scan, scanFrom_of_text h hapart h.length_le]
  simp

end DualIssue.Json
