import DualIssue.Json.Decode
import DualIssue.Latency

/-!
# Latencies in JSON
-/

namespace DualIssue

namespace LatencyReason

def name : LatencyReason → String
  | .plain => "None"
  | .agenStall => "AgenStall"
  | .loadBlockedByStore => "LoadBlockedByStore"
  | .memoryLoad => "MemoryLoad"

def ofName? (s : String) : Option LatencyReason :=
  all.find? fun reason => reason.name = s

def ofJson? (j : Json) : Option LatencyReason := j.name?.bind ofName?

end LatencyReason

namespace LatencyTable

/-- Reads a table, whose four fields are all required. -/
def ofJson? (j : Json) : Option LatencyTable :=
  match j.record? ["none", "agen_stall", "load_blocked_by_store", "memory_load"] with
  | some [plain, agenStall, loadBlockedByStore, memoryLoad] => do
    let plain ← Json.required Json.nat32? plain
    let agenStall ← Json.required Json.nat32? agenStall
    let loadBlockedByStore ← Json.required Json.nat32? loadBlockedByStore
    let memoryLoad ← Json.required Json.nat32? memoryLoad
    return { plain, agenStall, loadBlockedByStore, memoryLoad }
  | _ => none

def toJson (table : LatencyTable) : Json :=
  .object
    [("none", .nat table.plain),
     ("agen_stall", .nat table.agenStall),
     ("load_blocked_by_store", .nat table.loadBlockedByStore),
     ("memory_load", .nat table.memoryLoad)]

end LatencyTable

end DualIssue
