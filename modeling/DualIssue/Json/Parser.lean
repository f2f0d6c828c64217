import DualIssue.Json.Token

/-!
# Reading JSON

The grammatical half of the reader is an automaton over tokens. Its state says what may come next and
holds the containers that are still open, so nesting of any depth takes no call stack. `Json.parse?`
accepts exactly one value with blanks around its tokens: no trailing comma, no trailing text.
-/

namespace DualIssue.Json

/-- The containers around the place where a value is being read, innermost first, each with what it
already holds, latest first. -/
inductive Context where
  | top
  | item (before : List Json) (outer : Context)
  | field (before : List (Option String × Json)) (key : Option String) (outer : Context)

/-- What the reader expects next. -/
inductive Phase where
  /-- A value. -/
  | value (context : Context)
  /-- The first item of an array, or its end. -/
  | firstItem (outer : Context)
  /-- The first key of an object, or its end. -/
  | firstKey (outer : Context)
  /-- A further key of an object. -/
  | nextKey (before : List (Option String × Json)) (outer : Context)
  /-- The colon after a key. -/
  | colon (before : List (Option String × Json)) (key : Option String) (outer : Context)
  /-- What may follow a complete value in its context. -/
  | complete (value : Json) (context : Context)

/-- A value starts with this token. -/
def startValue (context : Context) : Token → Option Phase
  | .scalar v => some (.complete v context)
  | .openArr => some (.firstItem context)
  | .openObj => some (.firstKey context)
  | _ => none

/-- A key is a string. -/
def readKey (before : List (Option String × Json)) (outer : Context) : Token → Option Phase
  | .scalar (.str key) => some (.colon before key outer)
  | _ => none

/-- One token of the grammar. -/
def Phase.step : Phase → Token → Option Phase
  | .value context, token => startValue context token
  | .firstItem outer, .closeArr => some (.complete (.arr []) outer)
  | .firstItem outer, token => startValue (.item [] outer) token
  | .firstKey outer, .closeObj => some (.complete (.obj []) outer)
  | .firstKey outer, token => readKey [] outer token
  | .nextKey before outer, token => readKey before outer token
  | .colon before key outer, .colon => some (.value (.field before key outer))
  | .complete v (.item before outer), .comma => some (.value (.item (v :: before) outer))
  | .complete v (.item before outer), .closeArr =>
    some (.complete (.arr (v :: before).reverse) outer)
  | .complete v (.field before key outer), .comma => some (.nextKey ((key, v) :: before) outer)
  | .complete v (.field before key outer), .closeObj =>
    some (.complete (.obj ((key, v) :: before).reverse) outer)
  | _, _ => none

/-- The value that a list of tokens spells, if it spells exactly one. -/
def ofTokens? (tokens : List Token) : Option Json :=
  match tokens.foldlM Phase.step (.value .top) with
  | some (.complete v .top) => some v
  | _ => none

/-- The value that a text denotes, if the text is JSON. -/
def parse? (source : String) : Option Json := do
  ofTokens? (← Token.scan source.toList)

end DualIssue.Json
