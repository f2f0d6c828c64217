/-!
# JSON values

A block of instructions arrives as JSON text. `Json` is what such a text denotes. Two things are kept
that a looser value type would lose, because readers of typed data depend on them:

* an integer literal is told apart from every other numeral (`1.0`, `1e0` and `-0` are not integers);
* a string whose escapes leave a surrogate unpaired is well-formed JSON but denotes no text.
-/

namespace DualIssue

/-- What a JSON text denotes. Fields of an object stay in written order, repeated keys included. -/
inductive Json where
  | null
  | bool (value : Bool)
  /-- An integer literal other than `-0`, of any magnitude. -/
  | int (value : Int)
  /-- Any other numeral, by its literal. -/
  | real (literal : String)
  /-- A string; `none` if an escape leaves a surrogate unpaired, so that it denotes no text. -/
  | str (text : Option String)
  | arr (items : List Json)
  | obj (fields : List (Option String × Json))

namespace Json

def text (s : String) : Json := .str (some s)

def nat (n : Nat) : Json := .int n

/-- The JSON object with the given keys and values, in this order. -/
def object (fields : List (String × Json)) : Json :=
  .obj (fields.map fun (key, value) => (some key, value))

/-- `null` for `none`, else the value's own JSON. -/
def ofOption {α : Type} (encode : α → Json) : Option α → Json
  | none => .null
  | some a => encode a

end Json

end DualIssue
