import Mathlib.Algebra.Group.Nat.Defs
import Mathlib.Tactic.Common

/-!
# Byte maps and little-endian words

A byte map is a total function from offsets to bytes, for a disk as well as for a buffer. `blit`
is the block copy that disk transfers and `memcpy` come down to. `word` reads a 32-bit
little-endian word, and `words` lays out a sequence of them; `word_words` is the round trip.
-/

namespace LosKernel

/-- A map from byte offsets to bytes. -/
abbrev Bytes := Nat → UInt8

variable {off count i : Nat} {dst src b : Bytes}

namespace Bytes

/-- Copy the first `count` bytes of `src` to offset `off` of `dst`. -/
def blit (dst : Bytes) (off : Nat) (src : Bytes) (count : Nat) : Bytes := fun i =>
  if off ≤ i ∧ i < off + count then src (i - off) else dst i

/-- The bytes from offset `off` on. -/
def shift (b : Bytes) (off : Nat) : Bytes := fun i => b (off + i)

/-- The 32-bit little-endian word at offset `off`. -/
def word (b : Bytes) (off : Nat) : UInt32 :=
  UInt32.ofNat ((b off).toNat + 256 * (b (off + 1)).toNat + 65536 * (b (off + 2)).toNat +
    16777216 * (b (off + 3)).toNat)

/-- Byte `j` of a 32-bit word in little-endian order. -/
def wordByte (w : UInt32) (j : Nat) : UInt8 := UInt8.ofNat (w.toNat / 256 ^ j)

/-- Words laid out one after the other from offset 0. -/
def words (f : Nat → UInt32) : Bytes := fun i => wordByte (f (i / 4)) (i % 4)

/-! ## Block copies -/

theorem blit_inside (h : off ≤ i) (hlt : i < off + count) :
    blit dst off src count i = src (i - off) := by
  simp [blit, h, hlt]

theorem blit_outside (h : i < off ∨ off + count ≤ i) : blit dst off src count i = dst i := by
  unfold blit
  rw [if_neg (by omega)]

@[simp] theorem shift_apply (b : Bytes) (off i : Nat) : shift b off i = b (off + i) := rfl

/-- Two maps that agree on the four bytes at `off` have the same word there. -/
theorem word_congr {c : Bytes} {off' : Nat} (h : ∀ j < 4, b (off + j) = c (off' + j)) :
    word b off = word c off' := by
  have h0 := h 0 (by omega)
  have h1 := h 1 (by omega)
  have h2 := h 2 (by omega)
  have h3 := h 3 (by omega)
  simp only [Nat.add_zero] at h0
  simp only [word, h0, h1, h2, h3]

theorem word_blit_inside (h : off ≤ i) (hle : i + 4 ≤ off + count) :
    word (blit dst off src count) i = word src (i - off) := by
  apply word_congr
  intro j hj
  rw [blit_inside (by omega) (by omega), show i + j - off = i - off + j by omega]

/-! ## Words -/

/-- A word is determined by its four bytes. -/
theorem word_of_bytes {w : UInt32} (h : ∀ j < 4, b (off + j) = wordByte w j) : word b off = w := by
  have h0 := h 0 (by omega)
  have h1 := h 1 (by omega)
  have h2 := h 2 (by omega)
  have h3 := h 3 (by omega)
  have hlt := w.toNat_lt
  simp only [Nat.add_zero, wordByte] at h0 h1 h2 h3
  apply UInt32.toNat_inj.mp
  simp only [word, h0, h1, h2, h3, UInt32.toNat_ofNat', UInt8.toNat_ofNat']
  omega

theorem word_words (f : Nat → UInt32) (k : Nat) : word (words f) (4 * k) = f k := by
  apply word_of_bytes
  intro j hj
  simp only [words]
  rw [show (4 * k + j) / 4 = k by omega, show (4 * k + j) % 4 = j by omega]

@[simp] theorem wordByte_zero (j : Nat) : wordByte 0 j = 0 := by
  simp [wordByte]

/-- The word at an offset where all four bytes are zero. -/
theorem word_eq_zero (h : ∀ j < 4, b (off + j) = 0) : word b off = 0 :=
  word_of_bytes (fun j hj => by rw [h j hj, wordByte_zero])

end Bytes
end LosKernel
