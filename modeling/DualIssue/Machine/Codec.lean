import DualIssue.Json.Decode
import DualIssue.Machine.Model

/-!
# Machine entries in JSON

A port stands as its name, an entry as the pair of port and latency.
-/

namespace DualIssue

namespace IssuePort

def all : List IssuePort := [.port0, .port1, .either, .both]

def name : IssuePort → String
  | .port0 => "port0"
  | .port1 => "port1"
  | .either => "either"
  | .both => "both"

def ofName? (s : String) : Option IssuePort :=
  all.find? fun port => port.name = s

def ofJson? (j : Json) : Option IssuePort := j.name?.bind ofName?

def toJson (port : IssuePort) : Json := .text port.name

end IssuePort

namespace MachineEntry

def ofJson? : Json → Option MachineEntry
  | .arr [port, latency] => do
    let port ← IssuePort.ofJson? port
    let latency ← latency.nat32?
    return { port, latency }
  | _ => none

def toJson (entry : MachineEntry) : Json :=
  .arr [entry.port.toJson, .nat entry.latency]

end MachineEntry

end DualIssue
