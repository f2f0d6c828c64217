/-!
# Paths

The text of a path is a row of parts between slashes. A slash at the front starts the path at the
root. Parts may be empty: slashes in a row lead where one slash leads, but they count for the length
of a path, which is limited.
-/

namespace DualIssue.CommandLine

inductive PathStep where
  /-- Stays in the directory, written as a dot. -/
  | stay
  /-- Goes to the directory above, written as two dots. -/
  | up
  /-- Goes to an entry of the directory. -/
  | entry (name : String)
  deriving DecidableEq, Repr

/-- The step that a part denotes; an empty part is no step. -/
def PathStep.ofPart? : String → Option PathStep
  | "" => none
  | "." => some .stay
  | ".." => some .up
  | name => some (.entry name)

/-- A path, as the parts of its text between slashes. -/
structure Path where
  parts : List String
  deriving DecidableEq, Repr

namespace Path

def ofText (text : String) : Path := { parts := text.splitOn "/" }

def text (p : Path) : String := "/".intercalate p.parts

/-- The length of the text in bytes: that of the parts, and of a slash between each two. -/
def byteSize (p : Path) : Nat :=
  p.parts.foldl (fun size part => size + part.utf8ByteSize) (p.parts.length - 1)

/-- Whether the path starts at the root, and not at the working directory. -/
def isRooted (p : Path) : Bool :=
  match p.parts with
  | "" :: _ :: _ => true
  | _ => false

/-- Whether a slash at the end says that the path leads to a directory. -/
def isClosed (p : Path) : Bool :=
  p.parts.length > 1 && p.parts.getLast? = some ""

/-- The steps from where the path starts. -/
def steps (p : Path) : List PathStep := p.parts.filterMap PathStep.ofPart?

/-- The positions of the parts that make a level of their own. Staying in place makes one only at the
very start. -/
def levels (p : Path) : List Nat :=
  p.parts.zipIdx.filterMap fun (part, position) =>
    match PathStep.ofPart? part with
    | none => none
    | some .stay => if position = 0 then some position else none
    | some _ => some position

/-- The paths to the levels above the last one, the nearest first. Each is a first part of the path,
letter by letter. -/
def ancestors (p : Path) : List Path :=
  p.levels.dropLast.reverse.map fun position => { parts := p.parts.take (position + 1) }

end Path

end DualIssue.CommandLine
