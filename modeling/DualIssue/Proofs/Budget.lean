import DualIssue.Proofs.GraphEdges
import DualIssue.Record
import Mathlib.Algebra.Order.BigOperators.Group.List
import Mathlib.Algebra.Order.Group.Nat
import Mathlib.Algebra.Ring.Nat
import Mathlib.Data.List.Perm.Subperm

/-!
# Cycle budgets

Cycle counts have 32 bits, and nothing but a count that does not fit can stop the scheduling of a sound
block. To say which blocks are safe, every slot is given a cost. If the cost of each slot covers what can
pass between its issue and that of its successors, no path and no schedule takes longer than all costs
together.
-/

namespace DualIssue

open DualIssue.Graph

/-- The cost of some slots together. -/
def totalCost (cost : Slot → Nat) (slots : List Slot) : Nat := (slots.map cost).sum

theorem totalCost_append (cost : Slot → Nat) (l l' : List Slot) :
    totalCost cost (l ++ l') = totalCost cost l + totalCost cost l' := by
  simp [totalCost]

/-- The cost of a block up to and with a slot, as an induction over slots needs it. -/
theorem totalCost_range_succ (cost : Slot → Nat) (n : Nat) :
    totalCost cost (List.range (n + 1)) = totalCost cost (List.range n) + cost n := by
  rw [List.range_succ, totalCost_append]
  simp [totalCost]

theorem cost_le_totalCost (cost : Slot → Nat) {l : List Slot} {s : Slot} (h : s ∈ l) :
    cost s ≤ totalCost cost l := List.le_sum_of_mem (List.mem_map_of_mem h)

/-- Slots without repetition cost no more than a whole block of which they are part: up to order they are a
sublist of it, and costs are not negative. -/
theorem totalCost_le_range (cost : Slot → Nat) {l : List Slot} {n : Nat} (hnodup : l.Nodup)
    (hlt : ∀ s ∈ l, s < n) : totalCost cost l ≤ totalCost cost (List.range n) := by
  have hsub : l ⊆ List.range n := fun s hs => List.mem_range.mpr (hlt s hs)
  obtain ⟨l', hperm, hsublist⟩ := List.subperm_of_subset hnodup hsub
  have heq : totalCost cost l = totalCost cost l' := ((hperm.map cost).sum_nat).symm
  rw [heq]
  exact (hsublist.map cost).sum_le_sum fun _ _ => Nat.zero_le _

/-- The first slots of a block cost no more than more of its first slots. -/
theorem totalCost_range_le (cost : Slot → Nat) {m n : Nat} (h : m ≤ n) :
    totalCost cost (List.range m) ≤ totalCost cost (List.range n) :=
  totalCost_le_range cost List.nodup_range fun _ hs =>
    Nat.lt_of_lt_of_le (List.mem_range.mp hs) h

/-- The latency of the record in a slot. -/
def latencyAt (records : Array Record) (slot : Slot) : Nat :=
  (records[slot]?.map (·.latency)).getD 0

/-- Each cost covers the latency of its slot, or one cycle, together with the latency of any edge out of
the slot. -/
structure CoversDelays (g : Graph) (latency cost : Slot → Nat) : Prop where
  pos : ∀ s, 0 < cost s
  latency_le : ∀ s, latency s ≤ cost s
  delay_le : ∀ {s d}, d ∈ g.predsOf s → max (latency d.slot) 1 + d.latency ≤ cost d.slot

end DualIssue
