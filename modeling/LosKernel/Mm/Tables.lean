import LosKernel.Mm.AddressSpace

/-!
# Reading and writing page tables

A page directory whose last entry refers to itself makes its words and those of its page tables
appear at fixed addresses. Here are the rules for the accesses through `pde_ptr` and `pte_ptr`,
and for the other primitives of the paging code.
-/

namespace LosKernel.Mm

open Prog

variable {Q : Unit → Vm → Prop} {vaddr dir value frame : Nat} {mem : Nat → Nat → Nat}
  {ok : Stop → Prop} {s : Vm}

/-! ## Entries and indices -/

@[simp] theorem present_entry_for (addr : Nat) : present (entryFor addr) = true := by
  have hodd : entryFor addr % 2 = 1 := by
    rcases Nat.mod_two_eq_zero_or_one addr with h | h <;> simp [entryFor]
  simp [present, hodd]

@[simp] theorem frame_of_entry_for (addr : Nat) : frameOf (entryFor addr) = addr / 4096 := by
  have hdiv : (addr ||| 7) / 2 ^ 12 = addr / 2 ^ 12 ||| 7 / 2 ^ 12 := Nat.or_div_two_pow
  simpa [frameOf, entryFor] using hdiv

theorem pde_idx_lt (vaddr : Nat) : pdeIdx vaddr < 1024 := Nat.mod_lt _ (by decide)

theorem pte_idx_lt (vaddr : Nat) : pteIdx vaddr < 1024 := Nat.mod_lt _ (by decide)

theorem pde_idx_pde_ptr (vaddr : Nat) : pdeIdx (pdePtr vaddr) = 1023 := by
  unfold pdePtr
  unfold pdeIdx
  omega

theorem pte_idx_pde_ptr (vaddr : Nat) : pteIdx (pdePtr vaddr) = 1023 := by
  have := pde_idx_lt vaddr
  unfold pdePtr
  unfold pteIdx
  omega

theorem word_pde_ptr (vaddr : Nat) : pdePtr vaddr % 4096 / 4 = pdeIdx vaddr := by
  have := pde_idx_lt vaddr
  unfold pdePtr
  omega

theorem pde_idx_pte_ptr (vaddr : Nat) : pdeIdx (ptePtr vaddr) = 1023 := by
  have ht := pte_idx_lt vaddr
  unfold ptePtr
  unfold pdeIdx
  omega

theorem pte_idx_pte_ptr (vaddr : Nat) : pteIdx (ptePtr vaddr) = pdeIdx vaddr := by
  have hd := pde_idx_lt vaddr
  unfold ptePtr
  unfold pteIdx
  omega

theorem word_pte_ptr (vaddr : Nat) : ptePtr vaddr % 4096 / 4 = pteIdx vaddr := by
  have := pte_idx_lt vaddr
  unfold ptePtr
  omega

theorem pde_idx_page_pte_ptr (vaddr : Nat) : pdeIdx (ptePtr vaddr / 4096 * 4096) = 1023 := by
  have := pde_idx_pte_ptr vaddr
  unfold pdeIdx at *
  omega

theorem pte_idx_page_pte_ptr (vaddr : Nat) :
    pteIdx (ptePtr vaddr / 4096 * 4096) = pdeIdx vaddr := by
  rw [← pte_idx_pte_ptr vaddr]
  unfold pteIdx
  omega

/-! ## The words of a frame -/

/-- The memory after a store of one word. -/
def setWord (mem : Nat → Nat → Nat) (frame idx value : Nat) : Nat → Nat → Nat :=
  Function.update mem frame (Function.update (mem frame) idx value)

theorem set_word_apply (mem : Nat → Nat → Nat) (frame idx value f i : Nat) :
    setWord mem frame idx value f i = if f = frame ∧ i = idx then value else mem f i := by
  unfold setWord
  by_cases hf : f = frame
  · subst hf
    by_cases hi : i = idx
    · simp [hi]
    · simp [hi]
  · simp [hf]

@[simp] theorem set_word_same (mem : Nat → Nat → Nat) (frame idx value : Nat) :
    setWord mem frame idx value frame idx = value := by
  simp [set_word_apply]

theorem set_word_frame_ne (mem : Nat → Nat → Nat) {f : Nat} (idx value : Nat) (h : f ≠ frame) :
    setWord mem frame idx value f = mem f := by
  simp [setWord, Function.update_of_ne h]

/-- The last entry of a page directory refers to the directory itself. -/
def SelfMapped (mem : Nat → Nat → Nat) (dir : Nat) : Prop :=
  present (mem dir 1023) = true ∧ frameOf (mem dir 1023) = dir

theorem walk_pde_ptr (h : SelfMapped mem dir) (vaddr : Nat) :
    walk mem dir (pdePtr vaddr) = some dir := by
  obtain ⟨hp, hf⟩ := h
  simp [walk, pde_idx_pde_ptr, pte_idx_pde_ptr, hp, hf]

theorem walk_pte_ptr (h : SelfMapped mem dir) (vaddr : Nat) :
    walk mem dir (ptePtr vaddr) =
      if present (mem dir (pdeIdx vaddr)) then some (frameOf (mem dir (pdeIdx vaddr)))
      else none := by
  obtain ⟨hp, hf⟩ := h
  simp [walk, pde_idx_pte_ptr, pte_idx_pte_ptr, hp, hf]

theorem walk_page_pte_ptr (h : SelfMapped mem dir) (vaddr : Nat) :
    walk mem dir (ptePtr vaddr / 4096 * 4096) =
      if present (mem dir (pdeIdx vaddr)) then some (frameOf (mem dir (pdeIdx vaddr)))
      else none := by
  obtain ⟨hp, hf⟩ := h
  simp [walk, pde_idx_page_pte_ptr, pte_idx_page_pte_ptr, hp, hf]

/-! ## Rules for the primitives -/

@[simp] theorem wp_running_thread {Q : Task → Vm → Prop} : wp ok runningThread s Q ↔
      (∀ task, s.tasks s.cur = some task → Q task s) ∧
      (s.tasks s.cur = none → ok .badAccess) := by
  simp [runningThread]

@[simp] theorem wp_store_task {p : Nat} {task : Task} : wp ok (storeTask p task) s Q ↔
      Q () { s with tasks := Function.update s.tasks p (some task) } := Iff.rfl

@[simp] theorem wp_store_word {idx : Nat} : wp ok (storeWord frame idx value) s Q ↔
      Q () { s with mem := setWord s.mem frame idx value } := Iff.rfl

@[simp] theorem wp_frame_at {Q : Nat → Vm → Prop} : wp ok (frameAt vaddr) s Q ↔
      (∀ frame, walk s.mem s.cr3 vaddr = some frame → Q frame s) ∧
      (walk s.mem s.cr3 vaddr = none → ok .badAccess) := by
  simp [frameAt]

theorem wp_zero_page : wp ok (zeroPage vaddr) s Q ↔ (∀ frame, walk s.mem s.cr3 vaddr = some frame →
        Q () { s with mem := Function.update s.mem frame fun _ => 0 }) ∧
      (walk s.mem s.cr3 vaddr = none → ok .badAccess) := by
  simp [zeroPage]

section

variable (hself : SelfMapped s.mem s.cr3)

include hself

theorem wp_load_pde {Q : Nat → Vm → Prop} :
    wp ok (load (pdePtr vaddr)) s Q ↔ Q (s.mem s.cr3 (pdeIdx vaddr)) s := by
  simp [load, walk_pde_ptr hself, word_pde_ptr]

theorem wp_store_pde : wp ok (store (pdePtr vaddr) value) s Q ↔
      Q () { s with mem := setWord s.mem s.cr3 (pdeIdx vaddr) value } := by
  simp [store, walk_pde_ptr hself, word_pde_ptr]

theorem wp_load_pte {Q : Nat → Vm → Prop} :
    wp ok (load (ptePtr vaddr)) s Q ↔
      (present (s.mem s.cr3 (pdeIdx vaddr)) = true →
        Q (s.mem (frameOf (s.mem s.cr3 (pdeIdx vaddr))) (pteIdx vaddr)) s) ∧
      (present (s.mem s.cr3 (pdeIdx vaddr)) = false → ok .badAccess) := by
  cases h : present (s.mem s.cr3 (pdeIdx vaddr)) <;>
    simp [load, walk_pte_ptr hself, word_pte_ptr, h]

theorem wp_store_pte : wp ok (store (ptePtr vaddr) value) s Q ↔
      (present (s.mem s.cr3 (pdeIdx vaddr)) = true → Q () { s with
          mem := setWord s.mem (frameOf (s.mem s.cr3 (pdeIdx vaddr))) (pteIdx vaddr) value }) ∧
      (present (s.mem s.cr3 (pdeIdx vaddr)) = false → ok .badAccess) := by
  cases h : present (s.mem s.cr3 (pdeIdx vaddr)) <;>
    simp [store, walk_pte_ptr hself, word_pte_ptr, h]

theorem wp_addr_v2p {Q : Nat → Vm → Prop} :
    wp ok (addrV2p vaddr) s Q ↔
      (present (s.mem s.cr3 (pdeIdx vaddr)) = true →
        Q (frameOf (s.mem (frameOf (s.mem s.cr3 (pdeIdx vaddr))) (pteIdx vaddr)) * 4096 +
          vaddr % 4096) s) ∧
      (present (s.mem s.cr3 (pdeIdx vaddr)) = false → ok .badAccess) := by
  simp only [addrV2p, wp_bind, wp_load_pte hself, wp_pure, frameOf]

end

theorem wp_palloc {t : PoolType} {Q : Option Nat → Vm → Prop} : wp ok (palloc t) s Q ↔
      (∀ bitIdx, bitmapScan (s.pool t).poolMap 1 = some bitIdx →
        Q (some (bitIdx * 4096 + (s.pool t).phyAddrStart))
          (s.setPoolMap t (bitmapSet (s.pool t).poolMap bitIdx true))) ∧
      (bitmapScan (s.pool t).poolMap 1 = none → Q none s) := by
  simp only [palloc, wp_bind, wp_state]
  cases bitmapScan (s.pool t).poolMap 1 <;> simp

/-! ## Ranges of bits -/

theorem bitmap_set_range_len (m : BitMap) (start cnt : Nat) (value : Bool) :
    (bitmapSetRange m start cnt value).btmpBytesLen = m.btmpBytesLen := by
  induction cnt with
  | zero => rfl
  | succ cnt ih => simpa [bitmapSetRange] using ih

theorem scan_test_set_range (m : BitMap) (start cnt : Nat) (value : Bool) (j : Nat) :
    bitmapScanTest (bitmapSetRange m start cnt value) j =
      if start ≤ j ∧ j < start + cnt then value else bitmapScanTest m j := by
  induction cnt with
  | zero =>
    rw [if_neg (by omega)]
    rfl
  | succ cnt ih =>
    rw [bitmapSetRange, scan_test_bitmap_set, ih]
    by_cases hj : j = start + cnt
    · rw [if_pos hj, if_pos (by omega)]
    · rw [if_neg hj]
      by_cases hin : start ≤ j ∧ j < start + cnt
      · rw [if_pos hin, if_pos (by omega)]
      · rw [if_neg hin, if_neg (by omega)]

end LosKernel.Mm
