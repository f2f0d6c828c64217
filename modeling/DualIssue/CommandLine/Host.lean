import DualIssue.CommandLine.Path

/-!
# Access to files

What a command needs of a file system. Only single directories are asked for; a directory together
with all those above it is a matter of order, and that order is fixed here.
-/

namespace DualIssue.CommandLine

/-- How an attempt to make one directory ends. -/
inductive DirAttempt where
  /-- The directory is there, now or since before. -/
  | ready
  /-- The path leads through something that does not exist. -/
  | nowhere
  | refused
  deriving DecidableEq, Repr

/-- Access to files. -/
structure Host (m : Type → Type) where
  /-- The text of a file, if it can be read. -/
  readText : Path → m (Option String)
  /-- Attempts to make a directory in one that exists. -/
  makeDir : Path → m DirAttempt
  /-- Writes a file if that is possible. -/
  writeText : Path → String → m Unit

namespace Host

variable {m : Type → Type} [Monad m]

/-- Makes the first directory of a list and tells whether it is there. The rest of the list leads
upwards: a directory that has nowhere to go waits for the next one and gets a second attempt. -/
def makeDirAfter (host : Host m) : List Path → m Bool
  | [] => return true
  | path :: above => do
    match ← host.makeDir path with
    | .ready => return true
    | .refused => return false
    | .nowhere =>
      if ← host.makeDirAfter above then
        return (← host.makeDir path) = .ready
      else return false

/-- Makes a directory and all those that it needs, and tells whether it is there. -/
def makeDirs (host : Host m) (path : Path) : m Bool :=
  host.makeDirAfter (path :: path.ancestors)

end Host

end DualIssue.CommandLine
