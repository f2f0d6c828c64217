import DualIssue.Json.Basic

/-!
# JSON tokens

The lexical half of the reader: brackets, commas, colons and scalars, cut out of the characters of a
text. Only space, tab, line feed and carriage return may stand between tokens.
-/

namespace DualIssue.Json

/-- A lexical unit. A scalar token carries the value it denotes. -/
inductive Token where
  | openArr
  | closeArr
  | openObj
  | closeObj
  | comma
  | colon
  | scalar (value : Json)

/-- The four characters that may separate tokens. -/
def isBlank (c : Char) : Bool :=
  c = ' ' || c = '\t' || c = '\n' || c = '\r'

/-! ### Strings -/

/-- One unit of a quoted string: a character written as itself or by a one-letter escape, or the
UTF-16 code unit written by a `\u` escape. -/
inductive Piece where
  | char (c : Char)
  | unit (code : Nat)

/-- The value of a hexadecimal digit, in either case. -/
def hexDigit? (c : Char) : Option Nat :=
  if '0' ≤ c ∧ c ≤ '9' then some (c.toNat - '0'.toNat)
  else if 'a' ≤ c ∧ c ≤ 'f' then some (c.toNat - 'a'.toNat + 10)
  else if 'A' ≤ c ∧ c ≤ 'F' then some (c.toNat - 'A'.toNat + 10)
  else none

/-- The code unit of four hexadecimal digits. -/
def codeUnit? (a b c d : Char) : Option Nat := do
  let a ← hexDigit? a
  let b ← hexDigit? b
  let c ← hexDigit? c
  let d ← hexDigit? d
  return ((a * 16 + b) * 16 + c) * 16 + d

/-- The character that a backslash and this letter stand for. -/
def escaped? : Char → Option Char
  | '"' => some '"'
  | '\\' => some '\\'
  | '/' => some '/'
  | 'b' => some '\x08'
  | 'f' => some '\x0c'
  | 'n' => some '\n'
  | 'r' => some '\r'
  | 't' => some '\t'
  | _ => none

/-- Reads a string up to its closing quote, which is consumed. The pieces read so far are in `acc`,
latest first. Control characters have to be escaped. -/
def readPieces (acc : List Piece) : List Char → Option (List Piece × List Char)
  | [] => none
  | '"' :: rest => some (acc.reverse, rest)
  | '\\' :: 'u' :: a :: b :: c :: d :: rest =>
    match codeUnit? a b c d with
    | some code => readPieces (.unit code :: acc) rest
    | none => none
  | '\\' :: letter :: rest =>
    match escaped? letter with
    | some c => readPieces (.char c :: acc) rest
    | none => none
  | c :: rest => if c.toNat < 0x20 then none else readPieces (.char c :: acc) rest

def isHighSurrogate (code : Nat) : Bool := 0xD800 ≤ code ∧ code ≤ 0xDBFF

def isLowSurrogate (code : Nat) : Bool := 0xDC00 ≤ code ∧ code ≤ 0xDFFF

def pairChar (high low : Nat) : Char :=
  Char.ofNat ((high - 0xD800) * 0x400 + (low - 0xDC00) + 0x10000)

/-- The characters that the pieces denote; `none` if a surrogate is unpaired. -/
def joinPieces (acc : List Char) : List Piece → Option (List Char)
  | [] => some acc.reverse
  | .char c :: rest => joinPieces (c :: acc) rest
  | .unit high :: .unit low :: rest =>
    if isHighSurrogate high then
      if isLowSurrogate low then joinPieces (pairChar high low :: acc) rest else none
    else if isLowSurrogate high then none
    else joinPieces (Char.ofNat high :: acc) (.unit low :: rest)
  | .unit code :: rest =>
    if isHighSurrogate code || isLowSurrogate code then none
    else joinPieces (Char.ofNat code :: acc) rest

/-- The text that the pieces of a string denote, if they denote one. -/
def piecesText? (pieces : List Piece) : Option String :=
  (joinPieces [] pieces).map String.ofList

/-! ### Numerals -/

def digitsValue (digits : List Char) : Nat :=
  digits.foldl (fun n c => n * 10 + (c.toNat - '0'.toNat)) 0

/-- An optional fraction: a point and at least one digit. -/
def readFraction : List Char → Option (List Char × List Char)
  | '.' :: rest =>
    let (digits, rest) := rest.span Char.isDigit
    if digits.isEmpty then none else some ('.' :: digits, rest)
  | rest => some ([], rest)

/-- The digits of an exponent, after its mark and sign. -/
def readExponentDigits (mark : List Char) (cs : List Char) : Option (List Char × List Char) :=
  let (digits, rest) := cs.span Char.isDigit
  if digits.isEmpty then none else some (mark ++ digits, rest)

/-- An optional exponent: `e` or `E`, an optional sign and at least one digit. -/
def readExponent : List Char → Option (List Char × List Char)
  | c :: rest =>
    if c = 'e' ∨ c = 'E' then
      match rest with
      | '+' :: rest => readExponentDigits [c, '+'] rest
      | '-' :: rest => readExponentDigits [c, '-'] rest
      | rest => readExponentDigits [c] rest
    else some ([], c :: rest)
  | [] => some ([], [])

/-- The digits before the point: a single zero, or digits that do not start with one. -/
def readWhole (cs : List Char) : Option (List Char × List Char) :=
  match cs.span Char.isDigit with
  | ([], _) => none
  | ('0' :: _ :: _, _) => none
  | (digits, rest) => some (digits, rest)

/-- The part of a numeral after its sign. -/
def readUnsigned (negative : Bool) (cs : List Char) : Option (Json × List Char) := do
  let (whole, rest) ← readWhole cs
  let (fraction, rest) ← readFraction rest
  let (exponent, rest) ← readExponent rest
  let value := digitsValue whole
  if fraction.isEmpty && exponent.isEmpty && !(negative && value == 0) then
    return (.int (if negative then -(value : Int) else value), rest)
  else
    let sign := if negative then ['-'] else []
    return (.real (String.ofList (sign ++ whole ++ fraction ++ exponent)), rest)

/-- A numeral, with its optional minus sign. -/
def readNumeral : List Char → Option (Json × List Char)
  | '-' :: rest => readUnsigned true rest
  | cs => readUnsigned false cs

/-! ### Token streams -/

/-- The token at the front of the characters, and what follows it. -/
def Token.next? : List Char → Option (Token × List Char)
  | '[' :: rest => some (.openArr, rest)
  | ']' :: rest => some (.closeArr, rest)
  | '\x7b' :: rest => some (.openObj, rest)
  | '\x7d' :: rest => some (.closeObj, rest)
  | ',' :: rest => some (.comma, rest)
  | ':' :: rest => some (.colon, rest)
  | 'n' :: 'u' :: 'l' :: 'l' :: rest => some (.scalar .null, rest)
  | 't' :: 'r' :: 'u' :: 'e' :: rest => some (.scalar (.bool true), rest)
  | 'f' :: 'a' :: 'l' :: 's' :: 'e' :: rest => some (.scalar (.bool false), rest)
  | '"' :: rest =>
    match readPieces [] rest with
    | some (pieces, rest) => some (.scalar (.str (piecesText? pieces)), rest)
    | none => none
  | cs =>
    match readNumeral cs with
    | some (value, rest) => some (.scalar value, rest)
    | none => none

/-- Cuts characters into tokens, at most `fuel` of them; those read so far are in `acc`, latest first. -/
def Token.scanFrom (fuel : Nat) (acc : List Token) (cs : List Char) : Option (List Token) :=
  match cs.dropWhile isBlank with
  | [] => some acc.reverse
  | cs =>
    match fuel with
    | 0 => none
    | fuel + 1 =>
      match Token.next? cs with
      | some (token, rest) => Token.scanFrom fuel (token :: acc) rest
      | none => none

/-- The tokens of a text. Every token takes at least one character, so the length of the text bounds
their number. -/
def Token.scan (cs : List Char) : Option (List Token) :=
  Token.scanFrom cs.length [] cs

end DualIssue.Json
