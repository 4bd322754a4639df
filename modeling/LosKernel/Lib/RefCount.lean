import Mathlib.Algebra.BigOperators.Group.Finset.Piecewise

/-!
# Counting references

References to objects are held in a table of slots and in a list of handles. The number of
references to an object changes by one when a slot is filled or cleared, and when a handle is added
or removed.
-/

namespace LosKernel

variable {α κ : Type} [DecidableEq α] {n idx : Nat}

/-- One more reference to `a`. -/
def bump (t : α → Nat) (a : α) : α → Nat := fun b => t b + if b = a then 1 else 0

@[simp] theorem bump_self (t : α → Nat) (a : α) : bump t a a = t a + 1 := by simp [bump]

theorem bump_of_ne (t : α → Nat) {a b : α} (h : b ≠ a) : bump t a b = t b := by simp [bump, h]

/-! ## Slots -/

/-- The number of the first `n` slots that refer to `a`. -/
def slotCount (n : Nat) (slots : Nat → Option α) (a : α) : Nat :=
  ∑ i ∈ Finset.range n, if slots i = some a then 1 else 0

/-- Replacing the content of a slot trades the old reference for the new one. -/
theorem slot_count_update (hidx : idx < n) (slots : Nat → Option α) (new : Option α) (a : α) :
    slotCount n (Function.update slots idx new) a + (if slots idx = some a then 1 else 0) =
      slotCount n slots a + if new = some a then 1 else 0 := by
  have hmem : idx ∈ Finset.range n := Finset.mem_range.2 hidx
  have hupdate : (fun i => if Function.update slots idx new i = some a then 1 else 0) =
      Function.update (fun i => if slots i = some a then 1 else 0) idx
        (if new = some a then 1 else 0) := by
    funext i
    by_cases hi : i = idx
    · subst hi
      simp
    · simp [Function.update_of_ne hi]
  unfold slotCount
  rw [hupdate, Finset.sum_update_of_mem hmem, Finset.sdiff_singleton_eq_erase,
    ← Finset.add_sum_erase _ (fun i => if slots i = some a then 1 else 0) hmem]
  omega

theorem slot_count_pos {slots : Nat → Option α} {a : α} (hidx : idx < n) (h : slots idx = some a) :
    0 < slotCount n slots a := by
  have hmem : idx ∈ Finset.range n := Finset.mem_range.2 hidx
  unfold slotCount
  rw [← Finset.add_sum_erase _ _ hmem, if_pos h]
  omega

theorem slot_count_eq_zero {slots : Nat → Option α} {a : α} (h : ∀ i < n, slots i ≠ some a) :
    slotCount n slots a = 0 := by
  exact Finset.sum_eq_zero fun i hi => if_neg (h i (Finset.mem_range.1 hi))

/-! ## Handles -/

/-- The number of handles that refer to `a`. -/
def handleCount (handles : List (κ × α)) (a : α) : Nat := handles.countP fun e => e.2 = a

variable [DecidableEq κ]

theorem handle_count_erase {handles : List (κ × α)} {d : κ} {a : α}
    (h : handles.lookup d = some a) (b : α) :
    handleCount handles b =
      handleCount (handles.eraseP fun e => e.1 == d) b + if b = a then 1 else 0 := by
  induction handles with
  | nil => simp at h
  | cons e handles ih =>
    obtain ⟨k, v⟩ := e
    by_cases he : k = d
    · subst he
      obtain rfl : v = a := by simpa using h
      simp [handleCount, List.countP_cons, eq_comm]
    · have hlookup : handles.lookup d = some a := by
        simpa [List.lookup_cons, show (d == k) = false by simpa using Ne.symm he] using h
      have := ih hlookup
      simp only [handleCount, List.countP_cons, he, beq_iff_eq, not_false_eq_true,
        List.eraseP_cons_of_neg] at this ⊢
      omega

omit [DecidableEq α] in
theorem lookup_map_snd {β : Type} (f : β → α) (handles : List (κ × β)) (d : κ) :
    (handles.map fun e => (e.1, f e.2)).lookup d = (handles.lookup d).map f := by
  induction handles with
  | nil => rfl
  | cons e handles ih =>
    obtain ⟨k, v⟩ := e
    simp only [List.map_cons, List.lookup_cons]
    split
    · rfl
    · exact ih

omit [DecidableEq α] in
theorem lookup_of_mem {handles : List (κ × α)} (hnodup : (handles.map Prod.fst).Nodup)
    {e : κ × α} (he : e ∈ handles) : handles.lookup e.1 = some e.2 := by
  induction handles with
  | nil => simp at he
  | cons e' handles ih =>
    simp only [List.map_cons, List.nodup_cons] at hnodup
    rcases List.mem_cons.1 he with rfl | hmem
    · exact List.lookup_cons_self
    · obtain ⟨k, v⟩ := e'
      have hne : e.1 ≠ k := fun h => hnodup.1 (List.mem_map.2 ⟨e, hmem, h⟩)
      simp [List.lookup_cons, show (e.1 == k) = false by simpa using hne, ih hnodup.2 hmem]

/-- Counting the handles is counting the keys whose handle refers to `a`. -/
theorem handle_count_keys {handles : List (κ × α)} (hnodup : (handles.map Prod.fst).Nodup) (a : α) :
    handleCount handles a =
      (handles.map Prod.fst).countP fun d => handles.lookup d = some a := by
  rw [List.countP_map]
  refine List.countP_congr fun e he => ?_
  simp [lookup_of_mem hnodup he]

end LosKernel
