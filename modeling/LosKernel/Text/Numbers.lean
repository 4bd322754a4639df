import LosKernel.Kernel.State
import Mathlib.Data.Nat.Digits.Lemmas

/-!
# Writing numbers

`itoa` recurses on the quotient and then writes the remainder; `print_number` fills a buffer from
its end and looks for the first digit that is not zero. Both write the digits without leading
zeros, so the number can be read back.
-/

namespace LosKernel.Text

open Function (update update_of_ne update_self)

variable {base n fuel p : Nat} {buf : Bytes} {f : Nat → UInt8} {c : UInt8}

/-! ## Digits -/

/-- The characters of the digits, in upper and in lower case. -/
def upper (d : Nat) : UInt8 := if d <
    10 then UInt8.ofNat (d + 0x30) else UInt8.ofNat (d - 10 + 0x41)

@[inherit_doc upper]
def lower (d : Nat) : UInt8 := if d < 10 then UInt8.ofNat (0x30 +
    d) else UInt8.ofNat (0x61 + (d - 10))

/-- The digits of `n`, most significant first. -/
def numeral (base n : Nat) : List Nat := if n = 0 then [0] else (Nat.digits base n).reverse

/-- The value of a character as a digit. -/
def digitOf (c : UInt8) : Nat := if c < 0x3a then c.toNat - 0x30 else c.toNat % 32 + 9

/-- The value of a text as a number. -/
def readNumber (base : Nat) (text : CStr) : Nat := Nat.ofDigits base (text.map digitOf).reverse

theorem numeral_lt (hbase : 1 < base) : ∀ d ∈ numeral base n, d < base := by
  intro d hd
  unfold numeral at hd
  split at hd
  · simp at hd
    omega
  · exact Nat.digits_lt_base hbase (List.mem_reverse.1 hd)

/-- A text in which the characters stand for the digits is read as the number. -/
theorem read_numeral (hbase : 1 < base) (hle : base ≤ 16) (hf : ∀ d < 16, digitOf (f d) = d) :
    readNumber base ((numeral base n).map f) = n := by
  have hmap : ((numeral base n).map f).map digitOf = numeral base n := by
    rw [List.map_map]
    exact (List.map_congr_left fun d hd => hf d (by have := numeral_lt hbase d hd; omega)).trans
      (List.map_id _)
  rw [readNumber, hmap, numeral]
  split
  · simp [*]
  · rw [List.reverse_reverse, Nat.ofDigits_digits]

theorem numeral_head (base : Nat) (hn : n ≠ 0) : ∃ d ds, numeral base n = d :: ds ∧ d ≠ 0 := by
  have hnil := Nat.digits_ne_nil_iff_ne_zero (b := base).2 hn
  refine ⟨_, ((Nat.digits base n).dropLast).reverse, ?_, Nat.getLast_digit_ne_zero base hn⟩
  rw [numeral, if_neg hn, ← List.reverse_concat, List.dropLast_append_getLast hnil]

theorem numeral_eq (hbase : 1 < base) (n : Nat) :
    numeral base n = (if n / base ≠ 0 then numeral base (n / base) else []) ++ [n % base] := by
  by_cases hn : n = 0
  · simp [hn, numeral]
  · rw [numeral, if_neg hn, Nat.digits_def' hbase (by omega), List.reverse_cons]
    split
    · rename_i hq
      rw [numeral, if_neg hq]
    · rename_i hq
      rw [not_not.1 hq, Nat.digits_zero, List.reverse_nil]

/-! ## `itoa` -/

/-- The buffer after the characters `cs` were stored from `p` on. -/
def put (buf : Bytes) (p : Nat) (cs : CStr) : Bytes := fun i =>
  if p ≤ i then cs.getD (i - p) (buf i) else buf i

theorem put_put {cs ds es : CStr} (h : ds.length ≤ es.length) :
    put (put buf p (cs ++ ds)) (p + cs.length) es = put buf p (cs ++ es) := by
  funext i
  simp only [put, List.getD_eq_getElem?_getD, List.getElem?_append]
  grind

theorem update_eq_put : update buf p c = put buf p [c] := by
  funext i
  simp only [put, update, List.getD_eq_getElem?_getD]
  grind

/-- `itoa` with a bound on the depth of the recursion: the buffer and the output pointer. -/
def itoa (base : Nat) : Nat → Nat → Bytes × Nat → Option (Bytes × Nat)
  | 0, _, _ => none
  | fuel + 1, value, out => do
    let m := value % base
    let i := value / base
    let (buf, p) ← if i ≠ 0 then itoa base fuel i out else pure out
    pure (update buf p (upper m), p + 1)

theorem itoa_eq (hbase : 1 < base) (hfuel : n < base ^ (fuel + 1)) :
    itoa base (fuel + 1) n (buf, p) =
      some (put buf p ((numeral base n).map upper), p + (numeral base n).length) := by
  induction fuel generalizing n with
  | zero =>
    have hq : n / base = 0 := Nat.div_eq_of_lt (by simpa using hfuel)
    rw [numeral_eq hbase]
    simp [itoa, hq, update_eq_put]
  | succ fuel ih =>
    rw [numeral_eq hbase, itoa]
    by_cases hq : n / base = 0
    · simp [hq, update_eq_put]
    · have hlt : n / base < base ^ (fuel + 1) := by
        rwa [Nat.div_lt_iff_lt_mul (by omega), ← Nat.pow_succ]
      have hput := @put_put p buf ((numeral base (n / base)).map upper) [] [upper (n % base)]
        (Nat.zero_le _)
      rw [List.append_nil, List.length_map] at hput
      simp [hq, ih hlt, update_eq_put, hput, Nat.add_assoc]

theorem itoa_word (hbase : base = 10 ∨ base = 16) (w : UInt32) :
    itoa base 32 w.toNat (buf, p) = some (put buf p ((numeral base w.toNat).map upper),
      p + (numeral base w.toNat).length) := by
  have hpow : 2 ^ 32 ≤ base ^ 32 := Nat.pow_le_pow_left (by omega) 32
  exact itoa_eq (by omega) (w.toNat_lt.trans_le hpow)

/-! ## `print_number` -/

/-- The loop of `print_number` that stores `k` digits, in front of those that are stored already. -/
def fill : Nat → Nat → CStr → CStr
  | 0, _, buf => buf
  | k + 1, num, buf => fill k (num / 16) (lower (num % 16) :: buf)

/-- The loop of `print_number` that looks for a digit other than zero. -/
def skip : CStr → Nat → Nat
  | [], idx => idx
  | c :: rest, idx => if c = 0x30 then skip rest (idx + 1) else idx + 1

/-- `print_number`: the characters that are printed. -/
def printNumber (num : Nat) : CStr :=
  if num = 0 then [0x30, 0x78, 0x30]
  else
    let buf := fill 18 num []
    let idx := skip (buf.drop 2) 2 - 3
    let buf := ((buf ++ [0]).set idx 0x30).set (idx + 1) 0x78
    (buf.drop idx).takeWhile (· ≠ 0)

theorem fill_zero (k : Nat) (buf : CStr) : fill k 0 buf = List.replicate k 0x30 ++ buf := by
  induction k generalizing buf with
  | zero => rfl
  | succ k ih =>
    rw [fill, Nat.zero_div, ih, List.replicate_succ', List.append_assoc]
    rfl

theorem fill_eq {k : Nat} (hn : n ≠ 0) (hk : n < 16 ^ k) (buf : CStr) :
    (numeral 16 n).length ≤ k ∧ fill k n buf =
      List.replicate (k - (numeral 16 n).length) 0x30 ++ ((numeral 16 n).map lower ++ buf) := by
  induction k generalizing n buf with
  | zero => omega
  | succ k ih =>
    rw [fill, numeral_eq (by decide)]
    by_cases hq : n / 16 = 0
    · simp [hq, fill_zero]
    · obtain ⟨hle, hfill⟩ := ih hq (by omega) (lower (n % 16) :: buf)
      simp only [ne_eq, hq, not_false_eq_true, if_true, List.length_append, List.length_singleton]
      refine ⟨by omega, ?_⟩
      rw [hfill, Nat.add_sub_add_right, List.map_append, List.append_assoc]
      rfl

theorem skip_eq (hc : c ≠ 0x30) (rest : CStr) (m idx : Nat) :
    skip (List.replicate m 0x30 ++ c :: rest) idx = idx + m + 1 := by
  induction m generalizing idx with
  | zero => simp [skip, hc]
  | succ m ih =>
    rw [List.replicate_succ, List.cons_append, skip, if_pos rfl, ih]
    omega

theorem drop_set_set (A R : CStr) (x y a b : UInt8) :
    (((A ++ x :: y :: R).set A.length a).set (A.length + 1) b).drop A.length = a :: b :: R := by
  induction A with
  | nil => rfl
  | cons c A ih => simp

theorem print_number_eq (hn : n ≠ 0) (hlt : n < 2 ^ 64) :
    printNumber n = [0x30, 0x78] ++ (numeral 16 n).map lower := by
  obtain ⟨hle, -⟩ := fill_eq (k := 16) hn (by omega) []
  obtain ⟨-, hfill⟩ := fill_eq (k := 18) hn (by omega) []
  have hchar : ∀ d < 16, lower d ≠ 0 ∧ (lower d = 0x30 → d = 0) := by decide
  have hdigits : ∀ d ∈ numeral 16 n, d < 16 := numeral_lt (by decide)
  obtain ⟨d, ds, hds, hne⟩ := numeral_head 16 hn
  obtain ⟨m, hm⟩ : ∃ m, 18 - (numeral 16 n).length = m + 2 := ⟨16 - (numeral 16 n).length, by omega⟩
  rw [hm, hds, List.append_nil] at hfill
  rw [hds] at hdigits ⊢
  have hfirst : lower d ≠ 0x30 := fun h => hne ((hchar d (hdigits d (by simp))).2 h)
  have hskip : skip ((List.replicate (m + 2) 0x30 ++ (d :: ds).map lower).drop 2) 2 - 3 = m := by
    have := skip_eq hfirst (ds.map lower) m 2
    simp [List.replicate_succ] at this ⊢
    omega
  have hset := drop_set_set (List.replicate m 0x30) ((d :: ds).map lower ++ [0]) 0x30 0x30 0x30 0x78
  rw [List.length_replicate] at hset
  rw [printNumber, if_neg hn, hfill]
  simp only [hskip]
  rw [List.replicate_add, List.append_assoc, List.append_assoc]
  refine (congrArg _ hset).trans ?_
  rw [← List.cons_append, ← List.cons_append, List.takeWhile_append_of_pos ?_]
  · simp
  · simp at hdigits ⊢
    exact ⟨(hchar d hdigits.1).1, fun e he => (hchar e (hdigits.2 e he)).1⟩

/-! ## Rendering numbers -/

/-- A rendering that can be read back and has no leading zero. -/
structure Canonical (base : Nat) (render : Nat → CStr) : Prop where
  reads : ∀ n, readNumber base (render n) = n
  leading : ∀ n, (render n).head? = some 0x30 → n = 0
  injective : render.Injective

theorem canonical_numeral (hbase : 1 < base) (hle : base ≤ 16) (hf : ∀ d < 16, digitOf (f d) = d) :
    Canonical base fun n => (numeral base n).map f := by
  have hreads : ∀ n, readNumber base ((numeral base n).map f) = n :=
    fun n => read_numeral hbase hle hf
  refine ⟨hreads, fun n hhead => ?_, fun m n heq => ?_⟩
  · by_contra hn
    obtain ⟨d, ds, hds, hne⟩ := numeral_head base hn
    have hd : d < base := numeral_lt hbase d (hds ▸ List.mem_cons_self)
    rw [hds] at hhead
    refine hne ?_
    rw [← hf d (by omega), Option.some.inj hhead]
    rfl
  · rw [← hreads m, ← hreads n]
    exact congrArg _ heq

/-- `itoa` stores and `print_number` prints the digits of the number without leading zeros. -/
theorem numbers_rendered (hbase : base = 10 ∨ base = 16) (value : UInt32) (num : UInt64)
    (hnum : num ≠ 0) (buf : Bytes) (p : Nat) :
    itoa base 32 value.toNat (buf, p) = some (put buf p ((numeral base value.toNat).map upper),
      p + (numeral base value.toNat).length) ∧
    printNumber num.toNat = [0x30, 0x78] ++ (numeral 16 num.toNat).map lower ∧
    Canonical base (fun n => (numeral base n).map upper) ∧
    Canonical 16 fun n => (numeral 16 n).map lower := by
  have hne : num.toNat ≠ 0 := fun h => hnum (UInt64.toNat_inj.1 h)
  exact ⟨itoa_word hbase value, print_number_eq hne num.toNat_lt,
    canonical_numeral (by omega) (by omega) (by decide),
    canonical_numeral (by decide) (by decide) (by decide)⟩

theorem numbers_rendered_ten : itoa 10 32 70 (fun _ => 0, 0) =
    some (put (fun _ => 0) 0 ((numeral 10 70).map upper), (numeral 10 70).length) ∧
      printNumber 0xab = [0x30, 0x78] ++ (numeral 16 0xab).map lower :=
  have h := numbers_rendered (.inl rfl) 70 0xab (by decide) (fun _ => 0) 0
  ⟨by simpa using h.1, h.2.1⟩

end LosKernel.Text
