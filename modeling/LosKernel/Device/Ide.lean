import LosKernel.Kernel.State

/-!
# Disk transfers

After `device/ide.c`. A transfer moves whole sectors in groups of at most 256; `select_sector`
asserts for each group that it starts within the first 80 MB. Waiting and interrupts are left out:
a transfer is one step. The bytes that `ideRead` returns are zero from the end of the transfer on.
-/

namespace LosKernel

open Prog
open Bytes (blit blit_outside blit_inside)

variable {lba : UInt32} {secCnt off count cnt : Nat} {disk buf : Bytes} {ok : Stop → Prop}
  {s : Kernel}

/-- `max_lba`. -/
def maxLba : Nat := 80 * 1024 * 1024 / 512 - 1

/-- The contents of `secCnt` sectors from `lba` on. -/
def sectorsAt (disk : Bytes) (lba secCnt : Nat) : Bytes := fun i =>
  if i < 512 * secCnt then disk (512 * lba + i) else 0

/-- The contents of one sector. -/
def sectorAt (disk : Bytes) (lba : Nat) : Bytes := sectorsAt disk lba 1

/-- The first 512 bytes of a buffer. -/
def clip (b : Bytes) : Bytes := fun i => if i < 512 then b i else 0

/-- The `ASSERT`s of `ide_read`, `ide_write` and `select_sector`. The last group starts at the
highest address, so its test implies the others. -/
def sectorsInRange (lba : UInt32) (secCnt : Nat) : Bool :=
  0 < secCnt && lba.toNat + 256 * ((secCnt - 1) / 256) ≤ maxLba

/-- `ide_read`: the contents of `secCnt` sectors. -/
def ideRead (lba : UInt32) (secCnt : Nat) : Call Bytes := do
  assert (sectorsInRange lba secCnt)
  let s ← state
  pure (sectorsAt s.disk lba.toNat secCnt)

/-- `ide_write`: store `secCnt` sectors. -/
def ideWrite (lba : UInt32) (buf : Bytes) (secCnt : Nat) : Call Unit := do
  assert (sectorsInRange lba secCnt)
  update fun s =>
    { s with disk := blit s.disk (512 * lba.toNat) buf (512 * secCnt) }

/-- The 128 words of a sector of block addresses. -/
def tableAt (disk : Bytes) (lba : Nat) (j : Nat) : UInt32 := Bytes.word (sectorAt disk lba) (4 * j)

/-- `ide_read` of one sector into an array of words. -/
def ideReadWords (lba : UInt32) : Call (Nat → UInt32) := do
  let b ← ideRead lba 1
  pure fun j => Bytes.word b (4 * j)

/-- `ide_write` of one sector from an array of words. -/
def ideWriteWords (lba : UInt32) (table : Nat → UInt32) : Call Unit :=
  ideWrite lba (Bytes.words table) 1

/-! ## Sectors after a write -/

theorem sectorsInRange_one (lba : UInt32) : sectorsInRange lba 1 = decide (lba.toNat ≤ maxLba) := by
  simp [sectorsInRange]

/-- Writing one sector replaces that sector and no other. -/
theorem sectorAt_blit (disk buf : Bytes) (lba other : Nat) :
    sectorAt (blit disk (512 * lba) buf 512) other =
      if other = lba then clip buf else sectorAt disk other := by
  funext i
  unfold sectorAt sectorsAt
  by_cases hi : i < 512
  · by_cases ho : other = lba
    · subst ho
      rw [if_pos (by omega), blit_inside (by omega) (by omega)]
      simp [clip, hi]
    · rw [if_pos (by omega), if_neg ho, blit_outside (by omega)]
      simp [hi]
  · by_cases ho : other = lba <;> simp [ho, hi, clip]

/-- Sectors that were just written read back as the buffer. -/
theorem sectorsAt_blit_same (disk buf : Bytes) (lba cnt : Nat) :
    sectorsAt (blit disk (512 * lba) buf (512 * cnt)) lba cnt =
      fun i => if i < 512 * cnt then buf i else 0 := by
  funext i
  unfold sectorsAt
  by_cases hi : i < 512 * cnt
  · rw [if_pos hi, if_pos hi, blit_inside (by omega) (by omega), Nat.add_sub_cancel_left]
  · rw [if_neg hi, if_neg hi]

/-- Sectors outside the written range keep their contents. -/
theorem sectorsAt_blit_outside {lba : Nat}
    (h : 512 * lba + 512 * cnt ≤ off ∨ off + count ≤ 512 * lba) :
    sectorsAt (blit disk off buf count) lba cnt = sectorsAt disk lba cnt := by
  funext i
  unfold sectorsAt
  by_cases hi : i < 512 * cnt
  · rw [if_pos hi, if_pos hi, blit_outside (by omega)]
  · rw [if_neg hi, if_neg hi]

/-- Writing sectors back after a part of them was replaced replaces that part of the disk. -/
theorem blit_sectors_patch {src : Bytes} {lba : Nat} (h : off + count ≤ 512 * cnt) :
    blit disk (512 * lba) (blit (sectorsAt disk lba cnt) off src count) (512 * cnt) =
      blit disk (512 * lba + off) src count := by
  funext i
  by_cases hin : 512 * lba ≤ i ∧ i < 512 * lba + 512 * cnt
  · rw [blit_inside hin.1 hin.2]
    by_cases hpart : 512 * lba + off ≤ i ∧ i < 512 * lba + off + count
    · rw [blit_inside (by omega) (by omega), blit_inside hpart.1 hpart.2,
        show i - 512 * lba - off = i - (512 * lba + off) by omega]
    · rw [blit_outside (by omega), blit_outside (by omega)]
      simp [sectorsAt, show i - 512 * lba < 512 * cnt by omega,
        show 512 * lba + (i - 512 * lba) = i by omega]
  · rw [blit_outside (by omega), blit_outside (by omega)]

theorem tableAt_congr {disk' : Bytes} {lba : Nat} (h : sectorAt disk' lba = sectorAt disk lba) :
    tableAt disk' lba = tableAt disk lba := by
  funext j
  simp only [tableAt, h]

theorem word_clip_words (table : Nat → UInt32) {j : Nat} (hj : j < 128) :
    Bytes.word (clip (Bytes.words table)) (4 * j) = table j := by
  rw [← Bytes.word_words table j]
  apply Bytes.word_congr
  intro i hi
  simp [clip, show 4 * j + i < 512 by omega]

/-! ## Running a transfer -/

theorem ide_read_run (h : sectorsInRange lba secCnt = true) :
    ideRead lba secCnt s = .done (sectorsAt s.disk lba.toNat secCnt) s := by
  simp [ideRead, assert, bind_run, h]

theorem ide_write_run (h : sectorsInRange lba secCnt = true) :
    ideWrite lba buf secCnt s =
      .done () { s with disk := blit s.disk (512 * lba.toNat) buf (512 * secCnt) } := by
  simp [ideWrite, assert, bind_run, h]

@[simp] theorem wp_ide_read {Q : Bytes → Kernel → Prop} : wp ok (ideRead lba secCnt) s Q ↔
      (sectorsInRange lba secCnt = true → Q (sectorsAt s.disk lba.toNat secCnt) s) ∧
      (sectorsInRange lba secCnt = false → ok .assertFailed) := by
  simp [ideRead]

@[simp] theorem wp_ide_write {Q : Unit → Kernel → Prop} : wp ok (ideWrite lba buf secCnt) s Q ↔
      (sectorsInRange lba secCnt = true →
        Q () { s with disk := blit s.disk (512 * lba.toNat) buf (512 * secCnt) }) ∧
      (sectorsInRange lba secCnt = false → ok .assertFailed) := by
  simp [ideWrite]

@[simp] theorem wp_ide_read_words {Q : (Nat → UInt32) → Kernel → Prop} :
    wp ok (ideReadWords lba) s Q ↔
      (lba.toNat ≤ maxLba → Q (tableAt s.disk lba.toNat) s) ∧
      (maxLba < lba.toNat → ok .assertFailed) := by
  simp only [ideReadWords, wp_bind, wp_ide_read, sectorsInRange_one,
    decide_eq_true_eq, decide_eq_false_iff_not, Nat.not_le]
  rfl

end LosKernel
