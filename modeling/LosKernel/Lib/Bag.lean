import Mathlib.Algebra.Order.BigOperators.Group.Finset
import Mathlib.Algebra.Order.BigOperators.Group.Multiset
import Mathlib.Tactic.Abel

/-!
# What numbered places hold

A structure keeps its elements in numbered places. `bag n f` is the multiset of what the first `n`
places hold together, and `bag_change` compares two bags that differ in one place, without
subtraction.
-/

namespace LosKernel

variable {α : Type*} {n j : Nat} {f g : Nat → Multiset α} {a : α}

/-- What the places below `n` hold together. -/
def bag (n : Nat) (f : Nat → Multiset α) : Multiset α := ∑ k ∈ Finset.range n, f k

theorem bag_congr (h : ∀ k < n, f k = g k) : bag n f = bag n g :=
  Finset.sum_congr rfl fun k hk => h k (Finset.mem_range.1 hk)

/-- Two bags that differ in place `j` at most. -/
theorem bag_change (hj : j < n) (h : ∀ k < n, k ≠ j → g k = f k) :
    bag n g + f j = bag n f + g j := by
  have hmem : j ∈ Finset.range n := Finset.mem_range.2 hj
  have hrest : ∑ k ∈ (Finset.range n).erase j, g k = ∑ k ∈ (Finset.range n).erase j, f k := by
    refine Finset.sum_congr rfl fun k hk => ?_
    obtain ⟨hne, hlt⟩ := Finset.mem_erase.1 hk
    exact h k (Finset.mem_range.1 hlt) hne
  unfold bag
  rw [← Finset.add_sum_erase _ f hmem, ← Finset.add_sum_erase _ g hmem, hrest]
  abel

/-- Places that hold lists hold together what the lists do when they are put one after the other. -/
theorem bag_coe_eq_flatMap (n : Nat) (f : Nat → List α) :
    bag n (fun k => (f k : Multiset α)) = ((List.range n).flatMap f : Multiset α) := by
  induction n with
  | zero => rfl
  | succ n ih =>
    rw [List.range_succ, List.flatMap_append, ← Multiset.coe_add, ← ih, bag,
      Finset.sum_range_succ, List.flatMap_singleton]
    rfl

theorem mem_bag : a ∈ bag n f ↔ ∃ k < n, a ∈ f k := by
  simp [bag]

theorem bag_eq_zero_iff : bag n f = 0 ↔ ∀ k < n, f k = 0 := by
  simp [bag]

theorem card_bag_le {m : Nat} (h : ∀ k < n, (f k).card ≤ m) : (bag n f).card ≤ n * m := by
  rw [bag, Multiset.card_sum]
  calc ∑ k ∈ Finset.range n, (f k).card
      ≤ ∑ _k ∈ Finset.range n, m := Finset.sum_le_sum fun k hk => h k (Finset.mem_range.1 hk)
    _ = n * m := by simp

end LosKernel
