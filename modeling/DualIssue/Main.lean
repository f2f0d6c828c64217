import DualIssue.CommandLine.Run

/-!
# The program
-/

open DualIssue.CommandLine

/-- Files as the operating system has them. A directory is told from a file by its entry for itself,
which only a directory has. -/
def systemHost : Host IO where
  readText path := do
    try return some (← IO.FS.readFile path.text)
    catch _ => return none
  makeDir path := do
    try
      IO.FS.createDir path.text
      return .ready
    catch
      | .noFileOrDirectory .. => return .nowhere
      | .alreadyExists .. =>
        try
          let resolved := toString (← IO.FS.realPath path.text)
          discard (IO.FS.realPath (resolved ++ "/."))
          return .ready
        catch _ => return .refused
      | _ => return .refused
  writeText path text := do
    try IO.FS.writeFile path.text text
    catch _ => return ()

/-- Schedules the block named on the command line and prints its listing. -/
def main (args : List String) : IO UInt32 := do
  let outcome ← run systemHost args
  match outcome.result with
  | .ok text => IO.print text
  | .error failure => IO.eprintln failure.message
  return outcome.exitCode.toUInt32
