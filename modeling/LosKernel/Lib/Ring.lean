import Mathlib.Data.List.Range
import Mathlib.Tactic.Common

/-!
# Ring buffers

A ring buffer of `cap` slots holds `n` items from the slot `tail` on, wrapping around after the last
slot. `Ring.items` lists them in the order in which they were put in. Appending an item writes the
slot after the last one, removing one moves `tail`.
-/

namespace LosKernel.Ring

variable {α : Type} {cap tail n : Nat} {buf : Nat → α}

/-- The `n` items from `tail` on. -/
def items (cap : Nat) (buf : Nat → α) (tail n : Nat) : List α :=
  (List.range n).map fun i => buf ((tail + i) % cap)

@[simp] theorem length_items : (items cap buf tail n).length = n := by simp [items]

/-- Different positions within one round are different slots. -/
theorem slot_ne {i j : Nat} (hij : i < j) (hj : j < cap) : (tail + i) % cap ≠ (tail + j) % cap := by
  intro heq
  have hmod : (tail + j - (tail + i)) % cap = 0 := Nat.sub_mod_eq_zero_of_mod_eq heq.symm
  rw [Nat.mod_eq_of_lt (by omega)] at hmod
  omega

theorem items_push (hn : n < cap) (item : α) :
    items cap (Function.update buf ((tail + n) % cap) item) tail (n + 1) =
      items cap buf tail n ++ [item] := by
  have hold : ∀ i ∈ List.range n,
      Function.update buf ((tail + n) % cap) item ((tail + i) % cap) = buf ((tail + i) % cap) := by
    intro i hi
    exact Function.update_of_ne (slot_ne (List.mem_range.1 hi) hn) _ _
  rw [items, List.range_succ, List.map_append, List.map_congr_left hold]
  simp [items]

theorem items_pop (htail : tail < cap) :
    items cap buf tail (n + 1) = buf tail :: items cap buf ((tail + 1) % cap) n := by
  rw [items, List.range_succ_eq_map, List.map_cons, List.map_map, Nat.add_zero,
    Nat.mod_eq_of_lt htail]
  refine congrArg (buf tail :: ·) (List.map_congr_left fun i _ => ?_)
  show buf ((tail + (i + 1)) % cap) = buf (((tail + 1) % cap + i) % cap)
  rw [Nat.mod_add_mod]
  congr 2
  omega

/-- The next slot is `tail` exactly when all slots but one are in use. -/
theorem next_eq_tail_iff (htail : tail < cap) (hn : n < cap) :
    ((tail + n) % cap + 1) % cap = tail ↔ n + 1 = cap := by
  rw [Nat.mod_add_mod, Nat.add_assoc]
  constructor
  · intro heq
    by_contra hne
    have hslot : (tail + 0) % cap ≠ (tail + (n + 1)) % cap := slot_ne (by omega) (by omega)
    rw [Nat.add_zero, Nat.mod_eq_of_lt htail] at hslot
    exact hslot heq.symm
  · intro heq
    rw [heq, Nat.add_mod_right, Nat.mod_eq_of_lt htail]

/-- The slot after the last item is `tail` exactly when there is none. -/
theorem end_eq_tail_iff (htail : tail < cap) (hn : n < cap) : (tail + n) % cap = tail ↔ n = 0 := by
  constructor
  · intro heq
    by_contra hne
    have hslot : (tail + 0) % cap ≠ (tail + n) % cap := slot_ne (Nat.pos_of_ne_zero hne) hn
    rw [Nat.add_zero, Nat.mod_eq_of_lt htail] at hslot
    exact hslot heq.symm
  · rintro rfl
    rw [Nat.add_zero, Nat.mod_eq_of_lt htail]

end LosKernel.Ring
