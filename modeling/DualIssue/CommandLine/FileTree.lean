import DualIssue.CommandLine.Host

/-!
# File trees

Files and directories as a value, so that a command can be run, and what it leaves behind looked at,
without a disk. Nodes are numbered in the order in which they are made, and the root comes first. A
path is walked step by step, and each step needs a directory to start from.
-/

namespace DualIssue.CommandLine

/-- A file, or a directory with the node above it and the nodes of its entries. -/
inductive Node where
  | file (text : String)
  | directory (above : Nat) (entries : List (String × Nat))
  deriving DecidableEq, Repr

namespace Node

def emptyDirectory (above : Nat) : Node := .directory above []

def withEntry (name : String) (node : Nat) : Node → Node
  | .directory above entries => .directory above (entries ++ [(name, node)])
  | .file text => .file text

end Node

/-- Where a path leads: to a node, or to a name that a directory does not have yet. -/
inductive Target where
  | found (node : Nat)
  | vacant (directory : Nat) (name : String)
  deriving DecidableEq, Repr

/-- Why a path leads nowhere. -/
inductive WalkError where
  /-- A step starts from something that does not exist. -/
  | missing
  /-- A step starts from a file. -/
  | notDirectory
  /-- The path or a name in it is longer than allowed. -/
  | tooLong
  deriving DecidableEq, Repr

/-- Nodes, and the directory that paths start from. -/
structure FileTree where
  nodes : Array Node
  current : Nat
  deriving DecidableEq, Repr

namespace FileTree

/-- The tree of the root alone, which is above itself. -/
def empty : FileTree := { nodes := #[.emptyDirectory 0], current := 0 }

/-- The longest name of an entry, in bytes. -/
def maxName : Nat := 255

/-- The longest text of a path, in bytes. -/
def maxPath : Nat := 4095

/-- Where steps lead. Only the last step may lead to where nothing is. -/
def walk (t : FileTree) (node : Nat) : List PathStep → Except WalkError Target
  | [] => .ok (.found node)
  | step :: rest =>
    match t.nodes[node]? with
    | some (.directory above entries) =>
      match step with
      | .stay => t.walk node rest
      | .up => t.walk above rest
      | .entry name =>
        if name.utf8ByteSize > maxName then .error .tooLong
        else
          match entries.lookup name with
          | some next => t.walk next rest
          | none => if rest.isEmpty then .ok (.vacant node name) else .error .missing
    | some (.file _) => .error .notDirectory
    | none => .error .missing

/-- Where a path leads. The empty path leads nowhere. -/
def target (t : FileTree) (path : Path) : Except WalkError Target :=
  if path.byteSize > maxPath then .error .tooLong
  else if path.isRooted then t.walk 0 path.steps
  else if path.steps.isEmpty then .error .missing
  else t.walk t.current path.steps

def node? (t : FileTree) (path : Path) : Option Node :=
  match t.target path with
  | .ok (.found node) => t.nodes[node]?
  | _ => none

def add (t : FileTree) (directory : Nat) (name : String) (node : Node) : FileTree :=
  { t with nodes := (t.nodes.modify directory (.withEntry name t.nodes.size)).push node }

/-- The text of a file. A path with a slash at its end leads to no file. -/
def readText (t : FileTree) (path : Path) : Option String :=
  match t.node? path with
  | some (.file text) => if path.isClosed then none else some text
  | _ => none

/-- Makes a directory where nothing is yet. -/
def makeDir (t : FileTree) (path : Path) : DirAttempt × FileTree :=
  match t.target path with
  | .ok (.vacant directory name) => (.ready, t.add directory name (.emptyDirectory directory))
  | .ok (.found node) =>
    match t.nodes[node]? with
    | some (.directory ..) => (.ready, t)
    | _ => (.refused, t)
  | .error .missing => (.nowhere, t)
  | .error _ => (.refused, t)

/-- Writes a file, unless the path leads nowhere or to a directory. -/
def writeText (t : FileTree) (path : Path) (text : String) : FileTree :=
  if path.isClosed then t
  else
    match t.target path with
    | .ok (.vacant directory name) => t.add directory name (.file text)
    | .ok (.found node) =>
      match t.nodes[node]? with
      | some (.file _) => { t with nodes := t.nodes.modify node fun _ => .file text }
      | _ => t
    | .error _ => t

/-- Makes a directory the one that paths start from, if it is there. -/
def enter (t : FileTree) (path : Path) : FileTree :=
  match t.target path with
  | .ok (.found node) =>
    match t.nodes[node]? with
    | some (.directory ..) => { t with current := node }
    | _ => t
  | _ => t

/-- The files of a directory with their names; `none` if there is no such directory. -/
def filesIn? (t : FileTree) (path : Path) : Option (List (String × String)) :=
  match t.node? path with
  | some (.directory _ entries) =>
    some (entries.filterMap fun (name, node) =>
      match t.nodes[node]? with
      | some (.file text) => some (name, text)
      | _ => none)
  | _ => none

/-- The tree of some directories, each after the one above it, and of files in them. -/
def ofContents (directories : List String) (files : List (String × String)) : FileTree :=
  let t := directories.foldl (fun t path => (t.makeDir (.ofText path)).2) empty
  files.foldl (fun t (path, text) => t.writeText (.ofText path) text) t

def host : Host (StateM FileTree) where
  readText path := return (← get).readText path
  makeDir path := modifyGet fun t => t.makeDir path
  writeText path text := modify fun t => t.writeText path text

end FileTree

end DualIssue.CommandLine
