import LosKernel.Lib.Bytes
import Mathlib.Data.Finset.Card
import Mathlib.Data.Finset.Range
import Mathlib.Tactic.IntervalCases

/-!
# Bitmaps

After `lib/kernel/bitmap.c`. A bitmap is a byte array with its length; bit `idx` is bit `idx % 8`
of byte `idx / 8`. The searches read without a bound check, as in the source, so the bytes past
the length stand for whatever memory follows the array.
-/

namespace LosKernel

variable {bitIdx idx i cnt : Nat}

/-- `BitMap`: a byte array and its length in bytes. -/
structure BitMap where
  btmpBytesLen : Nat
  bits : Bytes

/-- `bitmap_scan_test`: the value of bit `idx`. -/
def bitmapScanTest (m : BitMap) (idx : Nat) : Bool :=
  (m.bits (idx / 8)).toBitVec.getLsbD (idx % 8)

/-- The value `bitmap_set` stores in a byte. -/
def setBit (byte : UInt8) (bitIdx : Nat) (value : Bool) : UInt8 :=
  if value then byte ||| (1 <<< UInt8.ofNat bitIdx) else byte &&& ~~~(1 <<< UInt8.ofNat bitIdx)

/-- `bitmap_set`: give bit `idx` the value `value`. -/
def bitmapSet (m : BitMap) (idx : Nat) (value : Bool) : BitMap :=
  { m with bits := Function.update m.bits (idx / 8) (setBit (m.bits (idx / 8)) (idx % 8) value) }

/-- The first loop of `bitmap_scan`: the first byte from `idx` on, among
`count`, with a free bit. -/
def scanByte (m : BitMap) : Nat → Nat → Nat
  | 0, idx => idx
  | count + 1, idx => if m.bits idx = 0xff then scanByte m count (idx + 1) else idx

/-- The second loop of `bitmap_scan`: the first clear bit of a byte, from `bitIdx` on. -/
def scanBit (byte : UInt8) : Nat → Nat → Nat
  | 0, bitIdx => bitIdx
  | count + 1, bitIdx =>
    if byte.toBitVec.getLsbD bitIdx then scanBit byte count (bitIdx + 1) else bitIdx

/-- The last loop of `bitmap_scan`: look for `cnt` clear bits in a row, `count` of which end just
before `nextBit`. -/
def scanRun (m : BitMap) (cnt : Nat) : Nat → Nat → Nat → Option Nat
  | 0, _, _ => none
  | bitLeft + 1, nextBit, count =>
    let count := if bitmapScanTest m nextBit then 0 else count + 1
    if count = cnt then some (nextBit + 1 - count) else scanRun m cnt bitLeft (nextBit + 1) count

/-- `bitmap_scan`: the start of `cnt` free bits, or `none` for the result -1. -/
def bitmapScan (m : BitMap) (cnt : Nat) : Option Nat :=
  let idx := scanByte m m.btmpBytesLen 0
  if idx = m.btmpBytesLen then none
  else
    let start := idx * 8 + scanBit (m.bits idx) 8 0
    if cnt = 1 then some start
    else scanRun m cnt (m.btmpBytesLen * 8 - start) (start + 1) 1

/-! ## Setting a bit -/

@[simp] theorem bitmap_set_len (m : BitMap) (idx : Nat) (value : Bool) :
    (bitmapSet m idx value).btmpBytesLen = m.btmpBytesLen := rfl

theorem set_bit_get (byte : UInt8) {j : Nat} (value : Bool) (hb : bitIdx < 8) (hj : j < 8) :
    (setBit byte bitIdx value).toBitVec.getLsbD j =
      if j = bitIdx then value else byte.toBitVec.getLsbD j := by
  have hmask : ((1 : UInt8) <<< UInt8.ofNat bitIdx).toBitVec.getLsbD j = decide (j = bitIdx) := by
    interval_cases bitIdx <;> interval_cases j <;> rfl
  cases value
  · simp only [setBit, Bool.false_eq_true, if_false, UInt8.toBitVec_and, UInt8.toBitVec_not,
      BitVec.getLsbD_and, BitVec.getLsbD_not, hmask, hj]
    by_cases h : j = bitIdx <;> simp [h]
  · simp only [setBit, if_true, UInt8.toBitVec_or, BitVec.getLsbD_or, hmask]
    by_cases h : j = bitIdx <;> simp [h]

/-- Setting a bit changes that bit and no other. -/
theorem scan_test_bitmap_set (m : BitMap) (idx j : Nat) (value : Bool) :
    bitmapScanTest (bitmapSet m idx value) j = if j = idx then value else bitmapScanTest m j := by
  unfold bitmapScanTest bitmapSet
  by_cases hbyte : j / 8 = idx / 8
  · simp only [hbyte, Function.update_self]
    rw [set_bit_get _ _ (Nat.mod_lt _ (by decide)) (Nat.mod_lt _ (by decide))]
    by_cases hj : j = idx
    · simp [hj]
    · rw [if_neg (by omega), if_neg hj]
  · simp only [Function.update_of_ne hbyte]
    rw [if_neg (by rintro rfl; exact hbyte rfl)]

theorem set_bit_set_bit (byte : UInt8) (hb : bitIdx < 8) (value : Bool)
    (hbit : byte.toBitVec.getLsbD bitIdx = value) (value' : Bool) :
    setBit (setBit byte bitIdx value') bitIdx value = byte := by
  refine UInt8.toBitVec_inj.1 (BitVec.eq_of_getLsbD_eq fun j hj => ?_)
  rw [set_bit_get _ _ hb hj, set_bit_get _ _ hb hj]
  by_cases h : j = bitIdx
  · rw [if_pos h, h, hbit]
  · rw [if_neg h, if_neg h]

theorem bitmap_set_undo (m : BitMap) {value : Bool} (value' : Bool)
    (hbit : bitmapScanTest m idx = value) : bitmapSet (bitmapSet m idx value') idx value = m := by
  have hbyte := set_bit_set_bit (m.bits (idx / 8)) (Nat.mod_lt idx (by decide)) value hbit value'
  simp [bitmapSet, hbyte]

/-! ## Searching for one free bit -/

theorem byte_full_iff (byte : UInt8) : byte = 0xff ↔ ∀ j < 8, byte.toBitVec.getLsbD j = true := by
  constructor
  · rintro rfl j hj
    interval_cases j <;> rfl
  · intro h
    apply UInt8.toBitVec_inj.mp
    apply BitVec.eq_of_getLsbD_eq
    intro i hi
    rw [h i hi]
    interval_cases i <;> rfl

/-- The byte the first loop ends at: all bytes before it are full, and it is not full unless the
loop ran to its end. -/
theorem scan_byte_spec (m : BitMap) : ∀ count idx,
    idx ≤ scanByte m count idx ∧ scanByte m count idx ≤ idx + count ∧
    (∀ k, idx ≤ k → k < scanByte m count idx → m.bits k = 0xff) ∧
    (scanByte m count idx < idx + count → m.bits (scanByte m count idx) ≠ 0xff) := by
  intro count
  induction count with
  | zero => intro idx; simp [scanByte]; omega
  | succ count ih =>
    intro idx
    simp only [scanByte]
    split
    · rename_i hfull
      obtain ⟨hle, hub, hall, hend⟩ := ih (idx + 1)
      refine ⟨by omega, by omega, ?_, fun h => hend (by omega)⟩
      intro k hk hlt
      rcases Nat.eq_or_lt_of_le hk with rfl | hk
      · exact hfull
      · exact hall k hk hlt
    · rename_i hfree
      exact ⟨Nat.le_refl _, by omega, fun k hk hlt => by omega, fun _ => hfree⟩

/-- The bit the second loop ends at. -/
theorem scan_bit_spec (byte : UInt8) : ∀ count bitIdx,
    bitIdx ≤ scanBit byte count bitIdx ∧ scanBit byte count bitIdx ≤ bitIdx + count ∧
    (∀ j, bitIdx ≤ j → j < scanBit byte count bitIdx → byte.toBitVec.getLsbD j = true) ∧
    (scanBit byte count bitIdx < bitIdx + count →
      byte.toBitVec.getLsbD (scanBit byte count bitIdx) = false) := by
  intro count
  induction count with
  | zero => intro bitIdx; simp [scanBit]; omega
  | succ count ih =>
    intro bitIdx
    simp only [scanBit]
    split
    · rename_i hset
      obtain ⟨hle, hub, hall, hend⟩ := ih (bitIdx + 1)
      refine ⟨by omega, by omega, ?_, fun h => hend (by omega)⟩
      intro j hj hlt
      rcases Nat.eq_or_lt_of_le hj with rfl | hj
      · exact hset
      · exact hall j hj hlt
    · rename_i hclear
      exact ⟨Nat.le_refl _, by omega, fun j hj hlt => by omega, fun _ => by simpa using hclear⟩

/-- The search for one bit fails exactly when every bit of the array is set. -/
theorem bitmap_scan_one_eq_none (m : BitMap) :
    bitmapScan m 1 = none ↔ ∀ j < 8 * m.btmpBytesLen, bitmapScanTest m j = true := by
  obtain ⟨_, hub, hall, hend⟩ := scan_byte_spec m m.btmpBytesLen 0
  unfold bitmapScan
  constructor
  · intro h j hj
    have hlast : scanByte m m.btmpBytesLen 0 = m.btmpBytesLen := by
      by_contra hne
      simp [hne] at h
    have hbyte := hall (j / 8) (Nat.zero_le _) (by omega)
    exact (byte_full_iff _).mp hbyte _ (Nat.mod_lt _ (by decide))
  · intro h
    have hlast : scanByte m m.btmpBytesLen 0 = m.btmpBytesLen := by
      by_contra hne
      refine hend (by omega) ((byte_full_iff _).mpr fun j hj => ?_)
      have := h (scanByte m m.btmpBytesLen 0 * 8 + j) (by omega)
      unfold bitmapScanTest at this
      rwa [show (scanByte m m.btmpBytesLen 0 * 8 + j) / 8 = scanByte m m.btmpBytesLen 0 by omega,
        show (scanByte m m.btmpBytesLen 0 * 8 + j) % 8 = j by omega] at this
    simp [hlast]

/-- The search for one bit returns the first clear bit of the array. -/
theorem bitmap_scan_one_eq_some (m : BitMap) (h : bitmapScan m 1 = some i) :
    i < 8 * m.btmpBytesLen ∧ bitmapScanTest m i = false ∧
      ∀ j < i, bitmapScanTest m j = true := by
  obtain ⟨_, hub, hall, hend⟩ := scan_byte_spec m m.btmpBytesLen 0
  unfold bitmapScan at h
  by_cases hlast : scanByte m m.btmpBytesLen 0 = m.btmpBytesLen
  · simp [hlast] at h
  simp only [hlast, if_false, if_true, Option.some.injEq] at h
  set idx := scanByte m m.btmpBytesLen 0 with hidx
  obtain ⟨_, hbub, hball, hbend⟩ := scan_bit_spec (m.bits idx) 8 0
  have hnot := hend (by omega)
  have hbit : scanBit (m.bits idx) 8 0 < 8 := by
    by_contra hge
    exact hnot ((byte_full_iff _).mpr fun j hj => hball j (Nat.zero_le _) (by omega))
  refine ⟨by omega, ?_, ?_⟩
  · unfold bitmapScanTest
    rw [← h, show (idx * 8 + scanBit (m.bits idx) 8 0) / 8 = idx by omega,
      show (idx * 8 + scanBit (m.bits idx) 8 0) % 8 = scanBit (m.bits idx) 8 0 by omega]
    exact hbend hbit
  · intro j hj
    unfold bitmapScanTest
    by_cases hsame : j / 8 = idx
    · rw [hsame]
      exact hball _ (Nat.zero_le _) (by omega)
    · exact (byte_full_iff _).mp (hall _ (Nat.zero_le _) (by omega)) _ (Nat.mod_lt _ (by decide))

/-! ## Counting free bits -/

/-- The number of clear bits. -/
def BitMap.free (m : BitMap) : Nat :=
  ((Finset.range (8 * m.btmpBytesLen)).filter fun i => bitmapScanTest m i = false).card

/-- The search for one bit fails exactly when no bit is clear. -/
theorem BitMap.free_eq_zero_iff (m : BitMap) : m.free = 0 ↔ bitmapScan m 1 = none := by
  rw [bitmap_scan_one_eq_none, BitMap.free]
  simp

/-- The bit that a search finds is one of the clear bits. -/
theorem BitMap.free_bitmap_set (m : BitMap) (h : bitmapScan m 1 = some i) :
    (bitmapSet m i true).free + 1 = m.free := by
  obtain ⟨hlt, hclear, -⟩ := bitmap_scan_one_eq_some _ h
  have hset : (Finset.range (8 * m.btmpBytesLen)).filter
      (fun j => bitmapScanTest (bitmapSet m i true) j = false) =
      ((Finset.range (8 * m.btmpBytesLen)).filter fun j => bitmapScanTest m j = false).erase i := by
    ext j
    simp only [Finset.mem_filter, scan_test_bitmap_set]
    by_cases hj : j = i <;> simp [hj]
  have hmem : i ∈ (Finset.range (8 * m.btmpBytesLen)).filter
      fun j => bitmapScanTest m j = false := by
    simpa using ⟨hlt, hclear⟩
  simp only [BitMap.free, bitmap_set_len]
  rw [hset, Finset.card_erase_add_one hmem]

theorem BitMap.le_free (m : BitMap) {start n : Nat} (hend : start + n ≤ 8 * m.btmpBytesLen)
    (hclear : ∀ i, start ≤ i → i < start + n → bitmapScanTest m i = false) : n ≤ m.free := by
  have hsub : Finset.image (start + ·) (Finset.range n) ⊆
      (Finset.range (8 * m.btmpBytesLen)).filter fun i => bitmapScanTest m i = false := by
    intro i hi
    obtain ⟨j, hj, rfl⟩ := Finset.mem_image.1 hi
    have hj := Finset.mem_range.1 hj
    rw [Finset.mem_filter, Finset.mem_range]
    exact ⟨by omega, hclear _ (by omega) (by omega)⟩
  calc n = (Finset.image (start + ·) (Finset.range n)).card := by
        rw [Finset.card_image_of_injective _ (add_right_injective start), Finset.card_range]
    _ ≤ m.free := Finset.card_le_card hsub

/-! ## Searching for several free bits -/

/-- The last loop keeps the number of clear bits just before `nextBit`; when it ends, the bits it
returns the start of are clear. -/
theorem scan_run_spec (m : BitMap) : ∀ bitLeft nextBit count,
    count < cnt → count ≤ nextBit → (∀ k < count, bitmapScanTest m (nextBit - 1 - k) = false) →
    scanRun m cnt bitLeft nextBit count = some i →
    i + cnt ≤ nextBit + bitLeft ∧ ∀ j < cnt, bitmapScanTest m (i + j) = false := by
  intro bitLeft
  induction bitLeft with
  | zero => simp [scanRun]
  | succ bitLeft ih =>
    intro nextBit count hlt hle hclear h
    by_cases hbit : bitmapScanTest m nextBit = true
    · simp only [scanRun, hbit, if_true, show ¬0 = cnt by omega] at h
      obtain ⟨hub, hall⟩ := ih (nextBit + 1) 0 (by omega) (by omega) (by omega) h
      exact ⟨by omega, hall⟩
    have hstep : ∀ k < count + 1, bitmapScanTest m (nextBit - k) = false := by
      intro k hk
      cases k with
      | zero => simpa using hbit
      | succ k =>
        rw [show nextBit - (k + 1) = nextBit - 1 - k by omega]
        exact hclear k (by omega)
    simp only [scanRun, hbit, Bool.false_eq_true, if_false] at h
    split at h
    · obtain rfl : nextBit + 1 - (count + 1) = i := by simpa using h
      refine ⟨by omega, fun j hj => ?_⟩
      have := hstep (count - j) (by omega)
      rwa [show nextBit - (count - j) = nextBit + 1 - (count + 1) + j by omega] at this
    · obtain ⟨hub, hall⟩ := ih (nextBit + 1) (count + 1) (by omega) (by omega)
        (fun k hk => by simpa using hstep k hk) h
      exact ⟨by omega, hall⟩

/-- The bits that a search returns are clear. The search for several bits also looks at the bit
just past the end of the array, so the last bit of the result may be that one. -/
theorem bitmap_scan_eq_some (m : BitMap) (hcnt : 0 < cnt) (h : bitmapScan m cnt = some i) :
    i + cnt ≤ 8 * m.btmpBytesLen + 1 ∧ ∀ j < cnt, bitmapScanTest m (i + j) = false := by
  by_cases hone : cnt = 1
  · subst hone
    obtain ⟨hlt, hclear, -⟩ := bitmap_scan_one_eq_some m h
    refine ⟨by omega, fun j hj => ?_⟩
    rwa [show i + j = i by omega]
  have hlast : scanByte m m.btmpBytesLen 0 ≠ m.btmpBytesLen := by
    intro hlast
    simp [bitmapScan, hlast] at h
  -- the first clear bit is the result of the search for one bit
  have hfirst : bitmapScan m 1 =
      some (scanByte m m.btmpBytesLen 0 * 8 +
      scanBit (m.bits (scanByte m m.btmpBytesLen 0)) 8 0) := by
    simp [bitmapScan, hlast]
  obtain ⟨hlt, hclear, -⟩ := bitmap_scan_one_eq_some m hfirst
  simp only [bitmapScan, hlast, hone] at h
  obtain ⟨hub, hall⟩ := scan_run_spec m _ _ 1 (by omega) (by omega)
    (fun k hk => by simpa [show k = 0 by omega] using hclear) h
  exact ⟨by omega, hall⟩

end LosKernel
