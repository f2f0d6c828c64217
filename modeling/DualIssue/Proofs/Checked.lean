import DualIssue.Error
import Mathlib.Data.List.Forall2

/-!
# Computations that may fail

Scheduling is written in `Except`: cycle counts are checked, slots may be missing. This module takes
such computations apart once, so that later proofs speak about plain values.

* **`Except.bind_eq_ok_iff`** and **`Except.bind_eq_error_iff`**: how a sequence of two steps ends.
* **`foldlM_ok_of_forall`**: a fold none of whose steps fails is the pure fold.
* **`foldlM_ok_of_preserves`**: a fold that succeeds keeps what its steps keep.
* **`foldlM_error_of_preserves`**: a fold that fails, fails in a step from a state that it has reached.
* **`foldlM_view`**: two folds agree in a view of their states if their steps do.
* **`mapM_checkCycle`**: checking a list of cycle counts either gives back the list or overflows.
* **`latest`** is the maximum of a list, zero for the empty one.
-/

namespace DualIssue

/-! ## Sequencing

Equivalences for each way in which a sequence, a mapped result and a lifted fault can end. Proofs about the
scheduler take its `do` blocks apart with these instead of unfolding `bind`. -/

/-- Two steps in sequence succeed exactly if the first does and the second does from what the first returned. -/
theorem Except.bind_eq_ok_iff {ε α β : Type} {x : Except ε α} {f : α → Except ε β} {b : β} :
    (x >>= f) = .ok b ↔ ∃ a, x = .ok a ∧ f a = .ok b := by
  cases x with
  | error e =>
    constructor
    · intro h
      cases h
    · rintro ⟨_, h, _⟩
      cases h
  | ok a =>
    constructor
    · intro h
      exact ⟨a, rfl, h⟩
    · rintro ⟨_, h, hf⟩
      cases h
      exact hf

/-- Two steps in sequence fail exactly if the first fails, or if it succeeds and the second fails with this
error. -/
theorem Except.bind_eq_error_iff {ε α β : Type} {x : Except ε α} {f : α → Except ε β} {e : ε} :
    (x >>= f) = .error e ↔ x = .error e ∨ ∃ a, x = .ok a ∧ f a = .error e := by
  cases x with
  | error e' =>
    constructor
    · intro h
      cases h
      exact Or.inl rfl
    · rintro (h | ⟨_, h, _⟩)
      · cases h; rfl
      · cases h
  | ok a =>
    constructor
    · intro h
      exact Or.inr ⟨a, rfl, h⟩
    · rintro (h | ⟨_, h, hf⟩)
      · cases h
      · cases h; exact hf

theorem Except.map_eq_ok_iff {ε α β : Type} {x : Except ε α} {f : α → β} {b : β} :
    x.map f = .ok b ↔ ∃ a, x = .ok a ∧ f a = b := by
  cases x with
  | error e =>
    constructor
    · intro h
      cases h
    · rintro ⟨_, h, _⟩
      cases h
  | ok a =>
    constructor
    · intro h
      cases h
      exact ⟨a, rfl, rfl⟩
    · rintro ⟨_, h, rfl⟩
      cases h
      rfl

theorem liftFault_eq_ok_iff {α : Type} {x : Except Fault α} {a : α} :
    liftFault x = .ok a ↔ x = .ok a := by
  cases x with
  | error f => constructor <;> intro h <;> cases h
  | ok b => constructor <;> intro h <;> cases h <;> rfl

/-- Lifting wraps a fault and makes no other error. -/
theorem liftFault_eq_error_iff {α : Type} {x : Except Fault α} {e : ScheduleError} :
    liftFault x = .error e ↔ ∃ f, x = .error f ∧ e = .fault f := by
  cases x with
  | error f =>
    constructor
    · intro h
      cases h
      exact ⟨f, rfl, rfl⟩
    · rintro ⟨_, h, rfl⟩
      cases h
      rfl
  | ok b =>
    constructor
    · intro h
      cases h
    · rintro ⟨_, h, _⟩
      cases h

/-! ## Folds

The loops of the scheduler are folds whose steps may fail. Each lemma here is one induction over the list that
is folded over, so that the proofs about a loop have to show something about one step only. -/

section Folds

variable {ε α β : Type} {f : β → α → Except ε β}

/-- A fold is the pure fold if no step fails on the way, where `P` is what holds on the way. The step has to
succeed and keep `P` only for states with `P` and for members of the list. -/
theorem foldlM_ok_of_forall {P : β → Prop} {pureStep : β → α → β} {l : List α} {b : β} (hb : P b)
    (hstep : ∀ b, P b → ∀ a ∈ l, f b a = .ok (pureStep b a) ∧ P (pureStep b a)) :
    l.foldlM f b = .ok (l.foldl pureStep b) ∧ P (l.foldl pureStep b) := by
  induction l generalizing b with
  | nil => exact ⟨rfl, hb⟩
  | cons a l ih =>
    obtain ⟨hok, hP⟩ := hstep b hb a List.mem_cons_self
    rw [List.foldlM_cons, hok, List.foldl_cons]
    exact ih hP fun b hb a ha => hstep b hb a (List.mem_cons_of_mem _ ha)

/-- A fold whose steps give the pure result whenever they succeed gives the pure fold. Here nothing is said
about when a step succeeds; the whole fold is known to. -/
theorem foldlM_eq_foldl_of_ok {pureStep : β → α → β}
    (hstep : ∀ b a b', f b a = .ok b' → b' = pureStep b a) {l : List α} {b b' : β}
    (h : l.foldlM f b = .ok b') : b' = l.foldl pureStep b := by
  induction l generalizing b with
  | nil =>
    cases h
    rfl
  | cons a l ih =>
    rw [List.foldlM_cons] at h
    obtain ⟨b₁, h₁, h₂⟩ := Except.bind_eq_ok_iff.mp h
    rw [List.foldl_cons, ← hstep b a b₁ h₁]
    exact ih h₂

/-- A fold that succeeds keeps what its steps keep. -/
theorem foldlM_ok_of_preserves {P : β → Prop} {l : List α} {b b' : β} (hb : P b)
    (hstep : ∀ b a b', a ∈ l → P b → f b a = .ok b' → P b') (h : l.foldlM f b = .ok b') : P b' := by
  induction l generalizing b with
  | nil =>
    cases h
    exact hb
  | cons a l ih =>
    rw [List.foldlM_cons] at h
    obtain ⟨b₁, h₁, h₂⟩ := Except.bind_eq_ok_iff.mp h
    exact ih (hstep b a b₁ List.mem_cons_self hb h₁)
      (fun b a b' ha => hstep b a b' (List.mem_cons_of_mem _ ha)) h₂

/-- A fold fails in one of its steps, which starts from a state that the earlier ones have kept. It fails at
once, or the rest of the list fails from the state after the first step. -/
theorem foldlM_error_of_preserves {P : β → Prop} {l : List α} {b : β} {e : ε} (hb : P b)
    (hstep : ∀ b a b', a ∈ l → P b → f b a = .ok b' → P b') (h : l.foldlM f b = .error e) :
    ∃ b' a, a ∈ l ∧ P b' ∧ f b' a = .error e := by
  induction l generalizing b with
  | nil => cases h
  | cons a l ih =>
    rw [List.foldlM_cons] at h
    rcases Except.bind_eq_error_iff.mp h with h₁ | ⟨b₁, h₁, h₂⟩
    · exact ⟨b, a, List.mem_cons_self, hb, h₁⟩
    · have hP : P b₁ := hstep b a b₁ List.mem_cons_self hb h₁
      obtain ⟨b', a', ha', hb', he⟩ :=
        ih hP (fun b a b' ha => hstep b a b' (List.mem_cons_of_mem _ ha)) h₂
      exact ⟨b', a', List.mem_cons_of_mem _ ha', hb', he⟩

/-- Two folds over lists that correspond element by element agree in a view of the state, if their steps do. The
induction is on the correspondence of the lists. A failing step ends both folds with the same error. -/
theorem foldlM_view {α' β' : Type} {f' : β' → α' → Except ε β'} (view : β → β') {R : α → α' → Prop}
    (hstep : ∀ b a a', R a a' → f' (view b) a' = (f b a).map view) {l : List α} {l' : List α'}
    (hl : List.Forall₂ R l l') (b : β) : l'.foldlM f' (view b) = (l.foldlM f b).map view := by
  induction hl generalizing b with
  | nil => rfl
  | @cons a a' l l' hR _ ih =>
    rw [List.foldlM_cons, List.foldlM_cons, hstep b a a' hR]
    cases f b a with
    | error e => rfl
    | ok next => exact ih next

/-- One more item at the end of a list that was mapped successfully. -/
theorem mapM_concat_eq_ok {f : α → Except ε β} {l : List α} {l' : List β} {a : α} {b : β}
    (hl : l.mapM f = .ok l') (ha : f a = .ok b) : (l ++ [a]).mapM f = .ok (l' ++ [b]) := by
  rw [List.mapM_append, hl, List.mapM_cons, ha]
  rfl

end Folds

/-! ## Cycle counts

A cycle count is checked wherever one is computed, and the only fault is overflow. -/

/-- A check succeeds exactly on counts within range and returns the count. -/
theorem checkCycle_eq_ok_iff {n m : Nat} : checkCycle n = .ok m ↔ n ≤ maxCycle ∧ m = n := by
  unfold checkCycle
  split
  · rename_i hle
    constructor
    · intro h
      cases h
      exact ⟨hle, rfl⟩
    · rintro ⟨_, rfl⟩
      rfl
  · rename_i hgt
    constructor
    · intro h
      cases h
    · rintro ⟨hle, _⟩
      exact absurd hle hgt

theorem checkCycle_eq_error {n : Nat} {f : Fault} (h : checkCycle n = .error f) :
    maxCycle < n ∧ f = .overflow := by
  unfold checkCycle at h
  split at h
  · cases h
  · rename_i hn
    cases h
    exact ⟨by omega, rfl⟩

/-- Checking a list of counts: all of them, or overflow. It does not matter which of them is out of range, since
the fault is the same. Induction on the list. -/
theorem mapM_checkCycle {α : Type} (count : α → Nat) (l : List α) :
    l.mapM (fun a => checkCycle (count a)) =
      if ∀ a ∈ l, count a ≤ maxCycle then .ok (l.map count) else .error .overflow := by
  induction l with
  | nil => rfl
  | cons a l ih =>
    rw [List.mapM_cons, ih]
    by_cases ha : count a ≤ maxCycle
    · rw [checkCycle_eq_ok_iff.mpr ⟨ha, rfl⟩]
      by_cases hl : ∀ x ∈ l, count x ≤ maxCycle
      · rw [if_pos hl, if_pos (by simpa using ⟨ha, hl⟩)]
        rfl
      · rw [if_neg hl, if_neg (by simpa using fun _ => by simpa using hl)]
        rfl
    · have hcheck : checkCycle (count a) = .error .overflow := by
        unfold checkCycle
        rw [if_neg ha]
      have hall : ¬ ∀ x ∈ a :: l, count x ≤ maxCycle := fun h => ha (h a List.mem_cons_self)
      rw [hcheck, if_neg hall]
      rfl

/-! ## The latest of several cycles

`latest` is a fold from zero, which no induction on the list can use directly. The equation `latest_cons` turns
it into a recursion, and then it is the least upper bound of the list. -/

/-- The fold may start from any count: that count is one more to take the maximum of. -/
theorem foldl_max_eq (l : List Nat) (n : Nat) : l.foldl max n = max n (latest l) := by
  unfold latest
  induction l generalizing n with
  | nil => simp
  | cons a l ih =>
    rw [List.foldl_cons, List.foldl_cons, ih (max n a), ih (max 0 a)]
    omega

@[simp] theorem latest_nil : latest [] = 0 := rfl

@[simp] theorem latest_cons (a : Nat) (l : List Nat) : latest (a :: l) = max a (latest l) := by
  rw [latest, List.foldl_cons, foldl_max_eq]
  omega

theorem le_latest {l : List Nat} {a : Nat} (h : a ∈ l) : a ≤ latest l := by
  induction l with
  | nil => cases h
  | cons b l ih =>
    rw [latest_cons]
    rcases List.mem_cons.mp h with rfl | h
    · omega
    · have := ih h
      omega

theorem latest_le {l : List Nat} {bound : Nat} (h : ∀ a ∈ l, a ≤ bound) : latest l ≤ bound := by
  induction l with
  | nil => exact Nat.zero_le _
  | cons b l ih =>
    rw [latest_cons]
    have hb := h b List.mem_cons_self
    have hl := ih fun a ha => h a (List.mem_cons_of_mem _ ha)
    omega

/-- On a list that is not empty the latest count is the maximum, so it is one of the counts. -/
theorem max?_eq_latest {l : List Nat} (h : l ≠ []) : l.max? = some (latest l) := by
  cases l with
  | nil => exact absurd rfl h
  | cons a l =>
    rw [List.max?_cons', foldl_max_eq, latest_cons]

end DualIssue
