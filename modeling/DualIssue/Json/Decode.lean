import DualIssue.Json.Basic

/-!
# Typed data in JSON

How values of sum types, records and bounded integers stand in JSON, read one layer at a time.

* A variant without data is its name, or an object with the name as its only key and `null` as value.
* A variant with data is an object with the name as its only key.
* A record is an object, in which keys that are no field are ignored and no field may stand twice, or
  an array of the fields in order, which may break off early.
-/

namespace DualIssue.Json

/-- The name of a variant, with its payload if it stands as an object. -/
def variant? : Json → Option (String × Option Json)
  | .str (some name) => some (name, none)
  | .obj [(some name, payload)] => some (name, some payload)
  | _ => none

/-- The name of a variant without data. -/
def name? (j : Json) : Option String :=
  match j.variant? with
  | some (name, none) => some name
  | some (name, some .null) => some name
  | _ => none

/-- The value of a field: absent, once, or refused because it stands twice. -/
def field? (fields : List (Option String × Json)) (name : String) : Option (Option Json) :=
  match fields.filter fun (key, _) => key = some name with
  | [] => some none
  | [(_, value)] => some (some value)
  | _ => none

/-- The fields of a record, in the order of `names`; `none` marks an absent one. -/
def record? (names : List String) : Json → Option (List (Option Json))
  | .arr items =>
    if items.length ≤ names.length then
      some (items.map some ++ List.replicate (names.length - items.length) none)
    else none
  | .obj fields =>
    if fields.all fun (key, _) => key.isSome then names.mapM (field? fields) else none
  | _ => none

/-- Reads a field that must be present. -/
def required {α : Type} (decode : Json → Option α) : Option Json → Option α
  | some j => decode j
  | none => none

/-- Reads a field that takes a default when absent. -/
def optional {α : Type} (default : α) (decode : Json → Option α) : Option Json → Option α
  | some j => decode j
  | none => some default

/-- Reads `null` as nothing. -/
def nullable {α : Type} (decode : Json → Option α) : Json → Option (Option α)
  | .null => some none
  | j => (decode j).map some

def bool? : Json → Option Bool
  | .bool b => some b
  | _ => none

/-- Reads an integer literal within bounds. -/
def intIn? (lo hi : Int) : Json → Option Int
  | .int n => if lo ≤ n ∧ n ≤ hi then some n else none
  | _ => none

def int64? (j : Json) : Option Int64 :=
  (j.intIn? (-9223372036854775808) 9223372036854775807).map Int64.ofInt

def int32? (j : Json) : Option Int32 :=
  (j.intIn? (-2147483648) 2147483647).map Int32.ofInt

def nat32? (j : Json) : Option Nat :=
  (j.intIn? 0 4294967295).map Int.toNat

def uint32? (j : Json) : Option UInt32 :=
  j.nat32?.map UInt32.ofNat

def list? {α : Type} (decode : Json → Option α) : Json → Option (List α)
  | .arr items => items.mapM decode
  | _ => none

end DualIssue.Json
