import LosKernel.Kernel.Bitmap

/-!
# First fit

The last loop of `bitmap_scan` takes its number of rounds from the first clear bit, but starts one
bit behind it, so it also looks at the bit past the end of the array: the search for `cnt > 1`
bits is a first-fit search in one bit more than there is (`bitmap_scan_several_first_fit`).
`bitmap_scan_first_fit_iff` says for which arrays this makes no difference.
-/

namespace LosKernel

variable {cnt size start i : Nat} {m m' : BitMap} {r : Option Nat}

/-- Bits `start` to `start + cnt - 1` are clear. -/
def BitMap.Clear (m : BitMap) (start cnt : Nat) : Prop :=
  ∀ j < cnt, bitmapScanTest m (start + j) = false

theorem BitMap.Clear.bit (h : m.Clear start cnt) (hi : start ≤ i) (hend : i < start + cnt) :
    bitmapScanTest m i = false := by
  have hbit := h (i - start) (by omega)
  rwa [show start + (i - start) = i by omega] at hbit

theorem not_clear_of_set (hset : bitmapScanTest m i = true) (hi : start ≤ i)
    (hend : i < start + cnt) : ¬m.Clear start cnt := by
  intro h
  exact absurd (h.bit hi hend) (by simp [hset])

theorem BitMap.Clear.congr (h : m.Clear start cnt)
    (hbits : ∀ i < start + cnt, bitmapScanTest m' i = bitmapScanTest m i) : m'.Clear start cnt := by
  intro j hj
  rw [hbits _ (by omega), h j hj]

/-- The starts of `cnt` clear bits among the first `size` ones. -/
def BitMap.fits (m : BitMap) (cnt size : Nat) : Set Nat :=
  {start | start + cnt ≤ size ∧ m.Clear start cnt}

/-- The result of a first-fit search for `cnt` bits among the first `size` ones. -/
def FirstFit (m : BitMap) (cnt size : Nat) : Option Nat → Prop
  | none => m.fits cnt size = ∅
  | some start => IsLeast (m.fits cnt size) start

/-- A first-fit search has one result. -/
theorem FirstFit.unique {r' : Option Nat} (h : FirstFit m cnt size r)
    (h' : FirstFit m cnt size r') : r = r' := by
  cases r with
  | none =>
    cases r' with
    | none => rfl
    | some start' => exact absurd (h ▸ h'.1 : start' ∈ (∅ : Set Nat)) (Set.notMem_empty _)
  | some start =>
    cases r' with
    | none => exact absurd (h' ▸ h.1 : start ∈ (∅ : Set Nat)) (Set.notMem_empty _)
    | some start' => exact congrArg some (IsLeast.unique h h')

theorem FirstFit.eq_none_iff (h : FirstFit m cnt size r) :
    r = none ↔ ¬∃ start, start ∈ m.fits cnt size := by
  cases r with
  | none => simpa using Set.eq_empty_iff_forall_notMem.1 h
  | some start => simpa using ⟨start, h.1⟩

theorem fits_congr (hbits : ∀ i < size, bitmapScanTest m' i = bitmapScanTest m i) :
    m'.fits cnt size = m.fits cnt size := by
  ext start
  refine and_congr_right fun hend => ⟨fun h => h.congr ?_, fun h => h.congr ?_⟩
  · intro i hi
    exact (hbits i (by omega)).symm
  · intro i hi
    exact hbits i (by omega)

theorem FirstFit.of_fits_eq (h : FirstFit m cnt size r)
    (hfits : m'.fits cnt size = m.fits cnt size) : FirstFit m' cnt size r := by
  cases r with
  | none => exact hfits.trans h
  | some start =>
    show IsLeast (m'.fits cnt size) start
    rw [hfits]
    exact h

/-! ## The loop -/

/-- The last loop returns the first run that ends in the bits it looks at, if no run starts before
the clear bits counted so far. -/
theorem scan_run_first_fit (m : BitMap) : ∀ bitLeft nextBit count,
    count < cnt → count ≤ nextBit → (∀ k < count, bitmapScanTest m (nextBit - 1 - k) = false) →
    (∀ start < nextBit - count, ¬m.Clear start cnt) →
    FirstFit m cnt (nextBit + bitLeft) (scanRun m cnt bitLeft nextBit count) := by
  intro bitLeft
  induction bitLeft with
  | zero =>
    intro nextBit count hlt hle hclear hseen
    show m.fits cnt nextBit = ∅
    refine Set.eq_empty_iff_forall_notMem.2 fun start hstart => ?_
    exact hseen start (by have := hstart.1; omega) hstart.2
  | succ bitLeft ih =>
    intro nextBit count hlt hle hclear hseen
    by_cases hbit : bitmapScanTest m nextBit = true
    · have hstep : scanRun m cnt (bitLeft + 1) nextBit count
          = scanRun m cnt bitLeft (nextBit + 1) 0 := by
        simp [scanRun, hbit, show ¬0 = cnt by omega]
      rw [hstep, show nextBit + (bitLeft + 1) = nextBit + 1 + bitLeft by omega]
      refine ih (nextBit + 1) 0 (by omega) (by omega) (by omega) fun start hstart => ?_
      -- a bit that is not clear excludes every start up to it
      by_cases hold : start < nextBit - count
      · exact hseen start hold
      · exact not_clear_of_set hbit (by omega) (by omega)
    by_cases hfound : count + 1 = cnt
    -- the bits up to `nextBit` are a run, and every earlier start is excluded
    · have hresult : scanRun m cnt (bitLeft + 1) nextBit count = some (nextBit - count) := by
        simp [scanRun, hbit]
        omega
      obtain ⟨-, hall⟩ := scan_run_spec m (bitLeft + 1) nextBit count hlt hle hclear hresult
      rw [hresult]
      refine ⟨⟨by omega, hall⟩, fun start hstart => ?_⟩
      by_contra hbefore
      exact hseen start (by omega) hstart.2
    · have hstep : scanRun m cnt (bitLeft + 1) nextBit count
          = scanRun m cnt bitLeft (nextBit + 1) (count + 1) := by
        simp [scanRun, hbit, hfound]
      rw [hstep, show nextBit + (bitLeft + 1) = nextBit + 1 + bitLeft by omega]
      refine ih (nextBit + 1) (count + 1) (by omega) (by omega) (fun k hk => ?_)
        (fun start hstart => hseen start (by omega))
      cases k with
      | zero => simpa using hbit
      | succ k =>
        rw [show nextBit + 1 - 1 - (k + 1) = nextBit - 1 - k by omega]
        exact hclear k (by omega)

/-! ## The search -/

/-- The search for one bit is a first-fit search in the array. -/
theorem bitmap_scan_one_first_fit (m : BitMap) :
    FirstFit m 1 (8 * m.btmpBytesLen) (bitmapScan m 1) := by
  cases hscan : bitmapScan m 1 with
  | none =>
    have hall := (bitmap_scan_one_eq_none m).1 hscan
    refine Set.eq_empty_iff_forall_notMem.2 fun start ⟨hend, hclear⟩ => ?_
    exact not_clear_of_set (hall start (by omega)) le_rfl (by omega) hclear
  | some start =>
    obtain ⟨hlt, hclear, hbefore⟩ := bitmap_scan_one_eq_some m hscan
    refine ⟨⟨by omega, fun j hj => ?_⟩, fun other ⟨hend, hother⟩ => ?_⟩
    · rwa [show start + j = start by omega]
    · by_contra hlt'
      exact not_clear_of_set (hbefore other (by omega)) le_rfl (by omega) hother

/-- The search for several bits is a first-fit search in the array and the bit that follows it. -/
theorem bitmap_scan_several_first_fit (m : BitMap) (hcnt : 1 < cnt) :
    FirstFit m cnt (8 * m.btmpBytesLen + 1) (bitmapScan m cnt) := by
  cases hone : bitmapScan m 1 with
  | none =>
    have hlast : scanByte m m.btmpBytesLen 0 = m.btmpBytesLen := by
      by_contra hne
      simp [bitmapScan, hne] at hone
    have hall := (bitmap_scan_one_eq_none m).1 hone
    rw [show bitmapScan m cnt = none by simp [bitmapScan, hlast]]
    refine Set.eq_empty_iff_forall_notMem.2 ?_
    rintro start ⟨hend, hclear⟩
    exact not_clear_of_set (hall start (by omega)) le_rfl (by omega) hclear
  | some first =>
    obtain ⟨hlt, hclear, hbefore⟩ := bitmap_scan_one_eq_some m hone
    have hlast : scanByte m m.btmpBytesLen 0 ≠ m.btmpBytesLen := by
      intro hlast
      simp [bitmapScan, hlast] at hone
    simp only [bitmapScan, hlast, if_false, if_true, Option.some.injEq] at hone
    have hscan : bitmapScan m cnt
        = scanRun m cnt (m.btmpBytesLen * 8 - first) (first + 1) 1 := by
      simp [bitmapScan, hlast, hone, show cnt ≠ 1 by omega]
    rw [hscan, show 8 * m.btmpBytesLen + 1 = first + 1 + (m.btmpBytesLen * 8 - first) by omega]
    refine scan_run_first_fit m _ _ 1 hcnt (by omega) (fun k hk => ?_) fun start hstart => ?_
    · simpa [show k = 0 by omega] using hclear
    · exact not_clear_of_set (hbefore start (by omega)) le_rfl (by omega)

/-! ## The end of the array -/

/-- A search for `cnt` bits that stays in the first `size` ones: there is a run among them, or the
last `cnt - 1` of them are not all clear. -/
def EndsInside (m : BitMap) (cnt size : Nat) : Prop :=
  (∃ start, start ∈ m.fits cnt size) ∨
    ¬(cnt - 1 ≤ size ∧ m.Clear (size - (cnt - 1)) (cnt - 1))

theorem EndsInside.congr (hbits : ∀ i < size, bitmapScanTest m' i = bitmapScanTest m i)
    (h : EndsInside m cnt size) : EndsInside m' cnt size := by
  rcases h with hrun | hend
  · exact .inl ((fits_congr hbits).symm ▸ hrun)
  · refine .inr fun ⟨hle, hclear⟩ => hend ⟨hle, hclear.congr fun i hi => ?_⟩
    exact (hbits i (by omega)).symm

/-- A search that stays inside does not see the bit that follows. -/
theorem FirstFit.shrink (hcnt : 0 < cnt) (h : FirstFit m cnt (size + 1) r)
    (hend : EndsInside m cnt size) : FirstFit m cnt size r := by
  have hsub : m.fits cnt size ⊆ m.fits cnt (size + 1) :=
    fun start ⟨hle, hclear⟩ => ⟨Nat.le_succ_of_le hle, hclear⟩
  cases r with
  | none => exact Set.subset_empty_iff.1 (h ▸ hsub)
  | some start =>
    obtain ⟨⟨hle, hclear⟩, hleast⟩ := h
    refine ⟨⟨?_, hclear⟩, fun other hother => hleast (hsub hother)⟩
    by_contra hpast
    rcases hend with ⟨other, hother⟩ | hlast
    · have hbefore : start ≤ other := hleast (hsub hother)
      have hinside := hother.1
      omega
    · refine hlast ⟨by omega, fun j hj => ?_⟩
      exact hclear.bit (by omega) (by omega)

/-- The search stays inside the array: it is a first-fit search there. -/
theorem bitmap_scan_first_fit (hcnt : 0 < cnt)
    (hend : cnt = 1 ∨ EndsInside m cnt (8 * m.btmpBytesLen)) :
    FirstFit m cnt (8 * m.btmpBytesLen) (bitmapScan m cnt) := by
  by_cases hone : cnt = 1
  · subst hone
    exact bitmap_scan_one_first_fit m
  · exact (bitmap_scan_several_first_fit m (by omega)).shrink hcnt (hend.resolve_left hone)

/-- `bitmap_scan` is a first-fit search in its array, and the bits past the array make no
difference to it, exactly when one bit is asked for, or there is a run of `cnt` clear bits in the
array, or the last `cnt - 1` bits of the array are not all clear. -/
theorem bitmap_scan_first_fit_iff (m : BitMap) {cnt : Nat} (hcnt : 0 < cnt) :
    ((∀ m' : BitMap, m'.btmpBytesLen = m.btmpBytesLen →
        (∀ i < 8 * m.btmpBytesLen, bitmapScanTest m' i = bitmapScanTest m i) →
        bitmapScan m' cnt = bitmapScan m cnt) ∧
      (bitmapScan m cnt = none ↔ ¬∃ start, start + cnt ≤ 8 * m.btmpBytesLen ∧ m.Clear start cnt) ∧
      ∀ start, bitmapScan m cnt = some start →
        IsLeast {start | start + cnt ≤ 8 * m.btmpBytesLen ∧ m.Clear start cnt} start) ↔
    cnt = 1 ∨ (∃ start, start + cnt ≤ 8 * m.btmpBytesLen ∧ m.Clear start cnt) ∨
      ¬(cnt - 1 ≤ 8 * m.btmpBytesLen ∧ m.Clear (8 * m.btmpBytesLen - (cnt - 1)) (cnt - 1)) := by
  constructor
  · intro ⟨hsame, hnone, _⟩
    by_contra hcond
    obtain ⟨hmany, hrun, hlast⟩ : cnt ≠ 1 ∧
        (¬∃ start, start + cnt ≤ 8 * m.btmpBytesLen ∧ m.Clear start cnt) ∧
        cnt - 1 ≤ 8 * m.btmpBytesLen ∧
          m.Clear (8 * m.btmpBytesLen - (cnt - 1)) (cnt - 1) := by
      simpa only [not_or, not_not] using hcond
    -- with the bit past the end clear, the last bits and that one are found
    let m' : BitMap := { m with bits := Function.update m.bits m.btmpBytesLen 0 }
    have hinside : ∀ i < 8 * m.btmpBytesLen, bitmapScanTest m' i = bitmapScanTest m i := by
      intro i hi
      simp [bitmapScanTest, m', Function.update_of_ne (show i / 8 ≠ m.btmpBytesLen by omega)]
    have hpast : bitmapScanTest m' (8 * m.btmpBytesLen) = false := by
      simp [bitmapScanTest, m']
    have hfits : 8 * m.btmpBytesLen - (cnt - 1) ∈ m'.fits cnt (8 * m.btmpBytesLen + 1) := by
      refine ⟨by omega, fun j hj => ?_⟩
      by_cases hbit : j < cnt - 1
      · rw [hinside _ (by omega), hlast.2 j hbit]
      · rwa [show 8 * m.btmpBytesLen - (cnt - 1) + j = 8 * m.btmpBytesLen by omega]
    have hscan := hsame m' rfl hinside
    rw [hnone.2 hrun] at hscan
    exact (bitmap_scan_several_first_fit m' (by omega)).eq_none_iff.1 hscan ⟨_, hfits⟩
  · intro hend
    have hfit := bitmap_scan_first_fit hcnt hend
    refine ⟨fun m' hlen hbits => ?_, hfit.eq_none_iff, fun start hscan => ?_⟩
    · have hend' : cnt = 1 ∨ EndsInside m' cnt (8 * m'.btmpBytesLen) :=
        hend.imp_right fun h => hlen ▸ EndsInside.congr hbits h
      have hfit' := hlen ▸ bitmap_scan_first_fit hcnt hend'
      exact hfit'.unique (hfit.of_fits_eq (fits_congr hbits))
    · rw [hscan] at hfit
      exact hfit

/-- A byte with its top bit clear, before memory that holds zero. -/
def topBitFree : BitMap := ⟨1, fun k => if k = 0 then 0x7f else 0⟩

/-- One free bit is asked for in `topBitFree`. -/
theorem bitmap_scan_first_fit_one :
    (0 < 1 ∧ bitmapScan topBitFree 1 = some 7) ∧ ∀ start, bitmapScan topBitFree 1 = some start →
      IsLeast {start | start + 1 ≤ 8 * topBitFree.btmpBytesLen ∧
      topBitFree.Clear start 1} start :=
  ⟨⟨by decide, by decide⟩,
    ((bitmap_scan_first_fit_iff topBitFree (by decide)).2 (.inl rfl)).2.2⟩

/-- Two free bits are asked for: the result ends past the array, and another value of the byte that
follows the array gives another result. -/
theorem bitmap_scan_runs_past_end :
    bitmapScan topBitFree 2 = some 7 ∧ ¬7 + 2 ≤ 8 * topBitFree.btmpBytesLen ∧
      (¬∃ start, start + 2 ≤ 8 * topBitFree.btmpBytesLen ∧ topBitFree.Clear start 2) ∧
      bitmapScan { topBitFree with bits := Function.update topBitFree.bits 1 1 } 2 = none := by
  refine ⟨by decide, by decide, fun ⟨start, hend, hclear⟩ => ?_, by decide⟩
  have hlt : start < 7 := by
    have hsize : 8 * topBitFree.btmpBytesLen = 8 := rfl
    omega
  have hbit := hclear 0 (by omega)
  revert hbit
  interval_cases start <;> decide

end LosKernel
