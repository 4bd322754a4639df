import LosKernel.Kernel.State

/-!
# Searching a string for a character

`strchr`, `strrchr` and `strchrs` compare a `char` with a `uint8_t`. A `char` is signed on the
target, so a byte above 127 becomes a negative number and no `uint8_t` equals it. -/

namespace LosKernel.Text

variable {ch c : UInt8} {str : CStr}

/-- The value of a `char` after the integer promotions. -/
def promoted (c : UInt8) : Int := if c.toNat < 128 then c.toNat else c.toNat - 256

/-- The comparison `*str == ch`. -/
def same (ch c : UInt8) : Bool := promoted c = ch.toNat

/-- `strchr`: the position in the string that starts at `pos`, or `NULL`. -/
def strchr (ch : UInt8) : Nat → CStr → Option Nat
  | _, [] => none
  | pos, c :: rest => if same ch c then some pos else strchr ch (pos + 1) rest

/-- The loop of `strrchr`. -/
def strrchrLoop (ch : UInt8) : Nat → Option Nat → CStr → Option Nat
  | _, last, [] => last
  | pos, last, c :: rest => strrchrLoop ch (pos + 1) (if same ch c then some pos else last) rest

/-- `strrchr`. -/
def strrchr (ch : UInt8) (str : CStr) : Option Nat := strrchrLoop ch 0 none str

/-- The loop of `strchrs`. -/
def strchrsLoop (ch : UInt8) : UInt32 → CStr → UInt32
  | count, [] => count
  | count, c :: rest => strchrsLoop ch (if same ch c then count + 1 else count) rest

/-- `strchrs`. -/
def strchrs (ch : UInt8) (str : CStr) : UInt32 := strchrsLoop ch 0 str

/-- The three functions find `ch` where it is. -/
structure Finds (ch : UInt8) (str : CStr) : Prop where
  first : ∀ i, strchr ch 0 str = some i ↔ str[i]? = some ch ∧ ∀ j < i, str[j]? ≠ some ch
  last : ∀ i, strrchr ch str = some i ↔ str[i]? = some ch ∧ ∀ j > i, str[j]? ≠ some ch
  none : (strchr ch 0 str = .none ↔ ch ∉ str) ∧ (strrchr ch str = .none ↔ ch ∉ str)
  number : (strchrs ch str).toNat = str.count ch

/-- Only bytes up to 127 are found equal. -/
theorem same_iff : same ch c = true ↔ c = ch ∧ ch.toNat < 128 := by
  have hc := c.toNat_lt
  rw [same, decide_eq_true_eq, promoted, ← UInt8.toNat_inj]
  split <;> omega

theorem strchr_eq (pos : Nat) : strchr ch pos str = (str.findIdx? (same ch)).map (pos + ·) := by
  induction str generalizing pos with
  | nil => rfl
  | cons c rest ih =>
    rw [strchr, List.findIdx?_cons, ih]
    split
    · rfl
    · simp [Function.comp_def, Nat.add_left_comm, Nat.add_comm]

theorem strrchr_append {pos : Nat} {last : Option Nat} :
    strrchrLoop ch pos last (str ++ [c]) =
      if same ch c then some (pos + str.length) else strrchrLoop ch pos last str := by
  induction str generalizing pos last with
  | nil => simp [strrchrLoop]
  | cons d rest ih =>
    rw [List.cons_append, strrchrLoop, ih, strrchrLoop, List.length_cons, Nat.add_right_comm,
      Nat.add_assoc]

theorem strchrs_toNat {count : UInt32} (h : count.toNat + str.length < 2 ^ 32) :
    (strchrsLoop ch count str).toNat = count.toNat + str.countP (same ch) := by
  induction str generalizing count with
  | nil => rfl
  | cons c rest ih =>
    rw [List.length_cons] at h
    have hadd : (count + 1).toNat = count.toNat + 1 := by
      rw [UInt32.toNat_add, UInt32.toNat_one]
      omega
    rw [strchrsLoop, List.countP_cons]
    split
    · rw [ih (by omega), hadd]
      omega
    · exact ih (by omega)

theorem strrchr_spec (hsame : ∀ c ∈ str, same ch c = true ↔ c = ch) :
    (∀ i, strrchr ch str = some i ↔ str[i]? = some ch ∧ ∀ j > i, str[j]? ≠ some ch) ∧
      (strrchr ch str = none ↔ ch ∉ str) := by
  rw [strrchr]
  induction str using List.reverseRecOn with
  | nil => simp [strrchrLoop]
  | append_singleton rest c ih =>
    obtain ⟨hfound, hnone⟩ := ih fun d hd => hsame d (by simp [hd])
    have hc := hsame c (by simp)
    rw [strrchr_append, Nat.zero_add]
    exact ⟨by grind, by grind⟩

/-- The functions find `ch` exactly when it is an ASCII character or not in the string. -/
theorem finds_iff (hfit : str.length < 2 ^ 32) : Finds ch str ↔ ch.toNat < 128 ∨ ch ∉ str := by
  constructor
  · intro h
    by_contra hcon
    obtain ⟨hlarge, hmem⟩ := not_or.1 hcon
    refine hmem (h.none.1.1 ?_)
    rw [strchr_eq, Option.map_eq_none_iff, List.findIdx?_eq_none_iff]
    exact fun c _ => Bool.eq_false_iff.2 fun heq => hlarge (same_iff.1 heq).2
  · intro h
    have hsame : ∀ c ∈ str, same ch c = true ↔ c = ch := by
      intro c hc
      rw [same_iff]
      exact ⟨And.left, fun heq => ⟨heq, h.resolve_right fun hnot => hnot (heq ▸ hc)⟩⟩
    obtain ⟨hlast, hnone⟩ := strrchr_spec hsame
    refine ⟨fun i => ?_, hlast, ⟨?_, hnone⟩, ?_⟩
    · rw [strchr_eq]
      simp only [Nat.zero_add, Option.map_id', List.findIdx?_eq_some_iff_getElem]
      grind
    · rw [strchr_eq, Option.map_eq_none_iff, List.findIdx?_eq_none_iff]
      grind
    · rw [strchrs, strchrs_toNat (by simpa), UInt32.toNat_zero, Nat.zero_add, List.count]
      exact List.countP_congr fun c hc => by simp [hsame c hc]

theorem finds_slash : Finds 0x2f [0x2f, 0x61] := (finds_iff (by decide)).2 (.inl (by decide))

/-- The first byte of a word in UTF-8 is not found. -/
theorem not_finds_utf8 : ¬Finds 0xe4 [0xe4, 0xbd, 0xa0] :=
  fun h => absurd (h.none.1.1 (by decide)) (by decide)

end LosKernel.Text
