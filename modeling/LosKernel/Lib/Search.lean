import Mathlib.Tactic.Common

/-!
# Linear search

A loop that looks at a number of indices in a row and returns the first one with a property.
-/

namespace LosKernel

section

variable {α : Type} {f : Nat → Nat → Option α} {g : Nat → Option α}

/-- `f count idx` is the first value that `g` has for one of `count` indices from `idx` on. -/
structure IsFirst (f : Nat → Nat → Option α) (g : Nat → Option α) : Prop where
  zero : ∀ idx, f 0 idx = none
  succ : ∀ count idx, f (count + 1) idx = (g idx).or (f count (idx + 1))

namespace IsFirst

/-- A search fails exactly when there is no value for an index in its range. -/
theorem eq_none_iff (h : IsFirst f g) (count : Nat) : ∀ idx,
    f count idx = none ↔ ∀ j, idx ≤ j → j < idx + count → g j = none := by
  induction count with
  | zero => exact fun idx => ⟨fun _ j hle hlt => by omega, fun _ => h.zero idx⟩
  | succ count ih =>
    intro idx
    rw [h.succ, Option.or_eq_none_iff, ih (idx + 1)]
    refine ⟨fun ⟨hfirst, hrest⟩ j hle hlt => ?_, fun hall =>
      ⟨hall idx (Nat.le_refl _) (by omega), fun j hle hlt => hall j (by omega) (by omega)⟩⟩
    rcases Nat.eq_or_lt_of_le hle with rfl | hle
    · exact hfirst
    · exact hrest j hle (by omega)

/-- What a search returns is the value for an index in its range. -/
theorem eq_some (h : IsFirst f g) {value : α} (count : Nat) : ∀ idx, f count idx = some value →
    ∃ j, idx ≤ j ∧ j < idx + count ∧ g j = some value := by
  induction count with
  | zero =>
    intro idx hvalue
    exact absurd (h.zero idx) (by simp [hvalue])
  | succ count ih =>
    intro idx hvalue
    rw [h.succ, Option.or_eq_some_iff] at hvalue
    rcases hvalue with hfirst | ⟨-, hrest⟩
    · exact ⟨idx, Nat.le_refl _, by omega, hfirst⟩
    · obtain ⟨j, hle, hlt, hj⟩ := ih (idx + 1) hrest
      exact ⟨j, by omega, by omega, hj⟩

end IsFirst

end

/-- `f count idx` is the first of `count` indices from `idx` on that satisfies `p`. -/
structure IsSearch (f : Nat → Nat → Option Nat) (p : Nat → Prop) : Prop where
  zero : ∀ idx, f 0 idx = none
  hit : ∀ count idx, p idx → f (count + 1) idx = some idx
  miss : ∀ count idx, ¬p idx → f (count + 1) idx = f count (idx + 1)

namespace IsSearch

variable {f : Nat → Nat → Option Nat} {p : Nat → Prop}

theorem is_first [DecidablePred p] (h : IsSearch f p) :
    IsFirst f fun idx => if p idx then some idx else none where
  zero := h.zero
  succ := by
    intro count idx
    split
    · exact h.hit count idx ‹_›
    · exact h.miss count idx ‹_›

open Classical in
/-- A search fails exactly when no index in its range has the property. -/
theorem eq_none_iff (h : IsSearch f p) (count idx : Nat) :
    f count idx = none ↔ ∀ j, idx ≤ j → j < idx + count → ¬p j := by
  simp [h.is_first.eq_none_iff]

open Classical in
/-- The index a search returns lies in its range and has the property. -/
theorem eq_some (h : IsSearch f p) {j : Nat} (count idx : Nat) (hj : f count idx = some j) :
    idx ≤ j ∧ j < idx + count ∧ p j := by
  obtain ⟨i, hle, hlt, hi⟩ := h.is_first.eq_some count idx hj
  obtain ⟨hp, rfl⟩ : p i ∧ i = j := by simpa using hi
  exact ⟨hle, hlt, hp⟩

end IsSearch

end LosKernel
