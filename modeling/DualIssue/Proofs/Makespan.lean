import DualIssue.Proofs.Outcome

/-!
# Schedules within their budget

The clock, the ready times and the critical paths are counted by different loops, and each count is
checked to fit. A block whose budget fits passes all of these checks, and the budget bounds what they
count: the paths because a path meets no slot twice, the clock because each jump of it waits for a slot
that has issued and paid for the wait.

* **`Finished.cycles_eq_ok`**, **`Finished.readyTime_le`**: on a finished board the clock is past everything.
* **`longestPath_withPaths`**: the paths that were measured are the paths that the records name.
* **`scheduleBlock_within_budget`** puts the bounds together.
-/

namespace DualIssue

open DualIssue.Graph DualIssue.Board

section Finished

variable {g : Graph} {records final : Array Record} {order : List Slot} {b : Board}

/-! ## Finished boards

When all slots have issued, the clock stands past every cycle of issue. So a bound for the clock is one for
everything that the records say about time. -/

/-- Every record has issued, in a cycle that is over. -/
theorem Board.Finished.issued_before (h : Finished g records final order b) {i : Nat} {r : Record}
    (hr : final[i]? = some r) : ∃ cycle, r.issueTime = some cycle ∧ cycle < b.time := by
  obtain ⟨hmem, htime⟩ := h.issueTime_eq hr
  exact ⟨_, htime, h.sound.past i hmem⟩

/-- A slot issues no earlier than it is ready, and its cycle is over. -/
theorem Board.Finished.readyTime_le (h : Finished g records final order b) {i : Nat} {r : Record}
    (hr : final[i]? = some r) : r.readyTime ≤ b.time := by
  obtain ⟨hmem, _⟩ := h.issueTime_eq hr
  have hready : b.readyTime i = r.readyTime := by
    unfold Board.readyTime
    rw [h.records_eq, hr]
    rfl
  have hwaited := h.sound.waited i hmem
  have hpast := h.sound.past i hmem
  omega

/-- The count of cycles fits if the clock does, and is no larger. -/
theorem Board.Finished.cycles_eq_ok (h : Finished g records final order b) (hfits : b.time ≤ maxCycle)
    (graph : Graph) :
    ∃ n, BlockSchedule.cycles { order, records := final, graph } = .ok n ∧ n ≤ b.time := by
  unfold BlockSchedule.cycles
  split
  · rename_i last hlast
    -- the last cycle is that of some record
    obtain ⟨r, hr, htime⟩ := List.mem_filterMap.mp (List.max?_mem hlast)
    obtain ⟨i, hi⟩ := List.getElem?_of_mem hr
    obtain ⟨cycle, hcycle, hlt⟩ := h.issued_before (by simpa using hi)
    cases hcycle.symm.trans htime
    exact ⟨last + 1, checkCycle_eq_ok_iff.mpr ⟨by omega, rfl⟩, hlt⟩
  · exact ⟨0, rfl, Nat.zero_le _⟩

end Finished

/-! ## Paths and clock

The two bounds of the budget. The paths go from the sweep through the list scheduler into the records. The clock
is paid for: `WithinBudget` says so of every board of the run, and at the end all slots have paid. -/

/-- With a path for each record, the path of a record is the one in its position. -/
theorem BlockSchedule.longestPath_withPaths {records : Array Record} {paths : Array Nat}
    (hsize : paths.size = records.size) {i : Nat} {r : Record}
    (hr : (withPaths records paths)[i]? = some r) : r.longestPath = some (paths.getD i 0) := by
  unfold withPaths at hr
  rw [Array.getElem?_mapIdx] at hr
  obtain ⟨r₀, hr₀, rfl⟩ := Option.map_eq_some_iff.mp hr
  have hlt : i < paths.size := by
    rw [hsize]
    exact (Array.getElem?_eq_some_iff.mp hr₀).1
  simp [hlt]

/-- Issuing leaves the paths as they were written in. -/
theorem Board.Finished.longestPath_eq {g : Graph} {records final : Array Record} {order : List Slot}
    {b : Board} {paths : Array Nat}
    (h : Finished g (BlockSchedule.withPaths records paths) final order b)
    (hsize : paths.size = records.size) {i : Nat} {r : Record} (hr : final[i]? = some r) :
    r.longestPath = some (paths.getD i 0) := by
  have hsame := h.sameBlock.map_eq (·.longestPath) (fun _ => rfl) i
  rw [hr, Option.map_some] at hsame
  obtain ⟨r₀, hr₀, heq⟩ := Option.map_eq_some_iff.mp hsame.symm
  rw [← heq]
  exact BlockSchedule.longestPath_withPaths hsize hr₀

/-- Costs that cover the delays bound the clock. `WithinBudget` is kept by every cycle, and in the end no slot
has paid twice. -/
theorem time_le_of_listSchedule {g : Graph} {records final : Array Record} {order : List Slot}
    (hg : g.Inverted) (hsize : records.size = g.size) (hpos : Positioned records) {cost : Slot → Nat}
    (hcov : CoversDelays g (latencyAt records) cost)
    (h : listSchedule g records = (final, .ok order)) :
    ∃ b, Finished g records final order b ∧ b.time ≤ totalCost cost (List.range g.size) := by
  obtain ⟨b, hb, hpaid⟩ := finished_of_listSchedule (P := WithinBudget cost) hg hsize hpos
    (fun _ hstart => withinBudget_of_start hstart cost)
    (fun _ _ _ _ hs hsame hw hoffer hi => hw.keep hcov hs hsame hoffer hi) h
  have htotal := totalCost_le_range cost hb.sound.order_nodup hb.sound.order_lt
  exact ⟨b, hb, Nat.le_trans hpaid.time_le htotal⟩

/-- All counts of a schedule are at most `bound`. -/
structure BlockSchedule.WithinCycles (s : BlockSchedule) (bound : Nat) : Prop where
  path_le : ∀ r ∈ s.records, ∃ path, r.longestPath = some path ∧ path ≤ bound
  readyTime_le : ∀ r ∈ s.records, r.readyTime ≤ bound
  cycles_le : ∃ n, s.cycles = .ok n ∧ n ≤ bound

/-- **A schedule stays within the budget of its block.** The costs are those of the budget: for each slot its
latency, or one cycle, and the dearest edge. They cover the delays (`coversDelays_of_closes`), so they bound the
clock and with it ready times and the length of the schedule, and they bound the paths (`Measured.within`). -/
theorem withinCycles_of_scheduleBlock {model : MachineModel} {options : Options}
    {block : List Instruction} {s : BlockSchedule} (henabled : options.enabled = true)
    (hfits : cycleBudget model options block ≤ maxCycle)
    (h : scheduleBlock model options block = .ok s) :
    s.WithinCycles (cycleBudget model options block) := by
  obtain ⟨records, paths, hrecords, hcloses, hpaths, hlist⟩ := scheduleBlock_eq_ok henabled h
  have hsize := size_eq_of_enlist hrecords hcloses
  have hlength : (records.map (·.latency)).length = s.graph.size := by simpa using hsize
  have hpos := BlockSchedule.positioned_withPaths (positioned_of_enlist hrecords) paths
  -- every slot pays for its latency and for the dearest edge
  have hcov := coversDelays_of_closes hcloses (latencyAt records.toArray)
  have hlatency : (fun s => (records.map (·.latency)).getD s 0) = latencyAt records.toArray :=
    funext (getD_latencies records.toArray)
  have htotal := totalCost_of_enlist hrecords options
  rw [hsize] at htotal
  have hmeasured := measured_of_longestPaths hcloses.inverted hcloses.forward hlength hpaths
  obtain ⟨b, hb, htime⟩ := time_le_of_listSchedule hcloses.inverted
    ((BlockSchedule.size_withPaths _ paths).trans hsize) hpos
    (by rw [BlockSchedule.latencyAt_withPaths]; exact hcov) hlist
  rw [htotal] at htime
  have hmem : ∀ {r}, r ∈ s.records → ∃ i : Nat, s.records[i]? = some r := fun hr =>
    Array.getElem?_of_mem hr
  constructor
  case path_le =>
    intro r hr
    obtain ⟨i, hi⟩ := hmem hr
    have hpath := hb.longestPath_eq (hmeasured.size_eq.trans hsize.symm) hi
    have hlt : i < s.graph.size := by
      rw [← hb.sound.size_eq, hb.records_eq]
      exact (Array.getElem?_eq_some_iff.mp hi).1
    have hwithin := hmeasured.within _ (by rw [hlatency]; exact hcov) i hlt
    rw [htotal] at hwithin
    exact ⟨_, hpath, by omega⟩
  case readyTime_le =>
    intro r hr
    obtain ⟨i, hi⟩ := hmem hr
    exact Nat.le_trans (hb.readyTime_le hi) htime
  case cycles_le =>
    obtain ⟨n, hn, hle⟩ := hb.cycles_eq_ok (Nat.le_trans htime hfits) s.graph
    exact ⟨n, hn, Nat.le_trans hle htime⟩

/-- **A block whose budget fits overflows nowhere and keeps to its budget.** All cycle counts are checked:
the paths, the arrivals over edges, the clock, also after the last issue, and the length of the schedule. If
the sum over the instructions of latency, or one cycle, and the dearest edge fits, then so do all of these,
and no path, no ready time and no schedule is longer. -/
theorem scheduleBlock_within_budget {model : MachineModel} {options : Options}
    {block : List Instruction} (henabled : options.enabled = true)
    (hplaced : ∀ k, ¬ Misplaced model block k) (hfits : cycleBudget model options block ≤ maxCycle) :
    ∃ s, scheduleBlock model options block = .ok s ∧
      s.WithinCycles (cycleBudget model options block) := by
  rcases scheduleBlock_completes hplaced with ⟨s, hok, _⟩ | ⟨_, _, hover⟩
  · exact ⟨s, hok, withinCycles_of_scheduleBlock henabled hfits hok⟩
  · exact absurd hfits (Nat.not_le.mpr hover)

/-- A machine on which everything takes almost half of the cycles that can be counted. -/
def slowModel : MachineModel := fun _ _ => some { port := .either, latency := 2147483644 }

/-- A load whose address another load has just brought in. -/
def pointerChase : List Instruction :=
  [{ mnemonic := .mov, operands := .memToReg (.unknown .esi 0) .eax },
   { mnemonic := .mov, operands := .memToReg (.unknown .eax 0) .ecx }]

/-- The budget of the two loads is one cycle short of the limit, and they keep to it. -/
theorem scheduleBlock_within_budget_on_pointerChase :
    (∀ k, ¬ Misplaced slowModel pointerChase k) ∧
      cycleBudget slowModel {} pointerChase + 1 = maxCycle ∧
      ∃ s, scheduleBlock slowModel {} pointerChase = .ok s ∧ s.WithinCycles (maxCycle - 1) := by
  have hplaced : ∀ k, ¬ Misplaced slowModel pointerChase k := by
    have hbounded : ∀ k, k < 2 → ¬ Misplaced slowModel pointerChase k := by decide
    exact fun k hk => hbounded k hk.lt_length hk
  have hbudget : cycleBudget slowModel {} pointerChase + 1 = maxCycle := by decide
  refine ⟨hplaced, hbudget, ?_⟩
  rw [← hbudget, Nat.add_sub_cancel]
  exact scheduleBlock_within_budget rfl hplaced (by omega)

end DualIssue
