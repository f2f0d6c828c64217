import DualIssue.Error
import DualIssue.Record

/-!
# Encoders

The encoder takes scheduled instructions in issue order. It may refuse one, depending on how many it
holds already.
-/

namespace DualIssue

/-- The instructions taken so far, and the reason to refuse another one while it holds so many. -/
structure Encoder where
  refusal : Nat → Option EmitError
  emitted : List Record := []

namespace Encoder

def unbounded : Encoder := { refusal := fun _ => none }

/-- Takes as many instructions as the code cache has room for. -/
def bounded (capacity : Nat) : Encoder :=
  { refusal := fun held => if capacity ≤ held then some (.codeCacheFull held) else none }

/-- Refuses to encode while it holds exactly this many instructions. -/
def failingAt (count : Nat) (reason : String) : Encoder :=
  { refusal := fun held => if held = count then some (.encoding reason) else none }

/-- Takes one instruction, or refuses it and stays as it is. -/
def emit (e : Encoder) (record : Record) : Except EmitError Encoder :=
  match e.refusal e.emitted.length with
  | some error => .error error
  | none => .ok { e with emitted := e.emitted ++ [record] }

/-- Takes instructions until one is refused. -/
def emitAll (e : Encoder) : List Record → Encoder × Except EmitError Unit
  | [] => (e, .ok ())
  | record :: rest =>
    match e.emit record with
    | .ok e => e.emitAll rest
    | .error error => (e, .error error)

/-- An encoder without refusals takes every list whole. -/
theorem emitAll_of_no_refusal {e : Encoder} (h : ∀ held, e.refusal held = none)
    (records : List Record) :
    e.emitAll records = ({ e with emitted := e.emitted ++ records }, .ok ()) := by
  induction records generalizing e with
  | nil => simp [emitAll]
  | cons record rest ih =>
    have hemit : e.emit record = .ok { e with emitted := e.emitted ++ [record] } := by
      simp only [emit, h]
    have hrest := ih (e := { e with emitted := e.emitted ++ [record] }) h
    simpa [emitAll, hemit] using hrest

def drained (e : Encoder) : Encoder := { e with emitted := [] }

end Encoder

end DualIssue
