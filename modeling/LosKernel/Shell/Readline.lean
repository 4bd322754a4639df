import LosKernel.Kernel.State

/-!
# Line editing

After `readline` of `shell/shell.c`, whose only caller passes `cmd_line` as the buffer. A key is
stored at the cursor before it is looked at, and before the cursor is compared with the size of
the buffer. -/

namespace LosKernel.Shell

variable {count : Nat} {keys line : CStr} {key : UInt8}

/-- The buffer, the cursor, and the places that have been written. -/
structure Editor where
  buf : Bytes
  pos : Nat
  written : List Nat

variable {s last : Editor}

namespace Editor

/-- Store a character. -/
def store (s : Editor) (i : Nat) (c : UInt8) : Editor :=
  { s with buf := Function.update s.buf i c, written := i :: s.written }

@[simp] theorem store_pos (i : Nat) (c : UInt8) : (s.store i c).pos = s.pos := rfl

/-- The loop for ctrl+u. -/
def clear : Nat → Editor → Editor
  | 0, s => { s with pos := 0 }
  | pos + 1, s => clear pos (s.store (pos + 1) 0)

/-- The cases of the `switch` that do not end the line. -/
def interpret (s : Editor) (key : UInt8) : Editor :=
  if key = 8 then if s.buf 0 ≠ 8 then { s with pos := s.pos - 1 } else s
  else if key = 11 then s.store s.pos 0
  else if key = 20 then clear s.pos s
  else { s with pos := s.pos + 1 }

/-- `readline`; `none` if it waits for another key. -/
def readline (count : Nat) : CStr → Editor → Option Editor
  | [], _ => none
  | key :: keys, s =>
    let s := s.store s.pos key
    if s.pos < count then
      if key = 10 ∨ key = 13 then some (s.store s.pos 0) else readline count keys (s.interpret key)
    else some s

end Editor

/-- The reference editor. -/
def edit (line : CStr) (key : UInt8) : CStr :=
  if key = 8 then line.dropLast else if key = 11 then line else if key = 20 then []
  else line ++ [key]

/-- The lines that are edited on the way stay shorter than the buffer. -/
def Fits (count : Nat) (keys : CStr) : Prop := ∀ line ∈ keys.scanl edit [], line.length < count

/-- The buffer begins with the characters of the line. -/
def Begins (buf : Bytes) (text : CStr) : Prop := ∀ i < text.length, text[i]? = some (buf i)

/-- What `readline` does with the keys, up to the carriage return. -/
def EditsLine (count : Nat) (keys : CStr) (buf : Bytes) : Prop :=
  ∃ last, Editor.readline count (keys ++ [13]) ⟨buf, 0, []⟩ = some last ∧
    (∀ i ∈ last.written, i < count) ∧
    (Fits count keys → Begins last.buf (keys.foldl edit []) ∧
      last.buf (keys.foldl edit []).length = 0) ∧
    ∃ i < count, last.buf i = 0

namespace Editor

/-- The editor holds the line, and has written to the buffer only. -/
structure Holds (count : Nat) (s : Editor) (line : CStr) : Prop where
  pos : s.pos = line.length
  begins : Begins s.buf line
  ordinary : ∀ c ∈ line, c ≠ 8
  written : ∀ i ∈ s.written, i < count

theorem clear_eq (p : Nat) (s : Editor) : (clear p s).pos = 0 ∧
    ∀ i ∈ (clear p s).written, i ≤ p ∨ i ∈ s.written := by
  induction p generalizing s with
  | zero => exact ⟨rfl, fun i hi => .inr hi⟩
  | succ p ih =>
    obtain ⟨hpos, hwritten⟩ := ih (s.store (p + 1) 0)
    refine ⟨hpos, fun i hi => ?_⟩
    rcases hwritten i hi with hle | hmem
    · exact .inl (by omega)
    · exact (List.mem_cons.1 hmem).imp_left Nat.le_of_eq

section

variable (h : Holds count s line)

include h

/-- A character stored at the cursor is not part of the line. -/
theorem Holds.store (hlt : line.length < count) (c : UInt8) :
    Holds count (s.store s.pos c) line := by
  refine ⟨h.pos, fun i hi => ?_, h.ordinary, fun i hi => ?_⟩
  · rw [h.begins i hi]
    exact congrArg some (Function.update_of_ne (by rw [h.pos]; omega) _ _).symm
  · rcases List.mem_cons.1 hi with rfl | hi
    · rwa [h.pos]
    · exact h.written i hi

/-- One key, which has been stored at the cursor. -/
theorem Holds.interpret (hlt : line.length < count) (hkey : s.buf s.pos = key) :
    Holds count (s.interpret key) (edit line key) := by
  have hpos := h.pos
  unfold Editor.interpret edit
  split
  · rename_i heq
    -- the key itself is in front of an empty line, and no line begins with it
    have hnil : s.buf 0 ≠ 8 ↔ line ≠ [] := by
      refine not_congr ⟨fun hzero => ?_, fun hnil => ?_⟩
      · by_contra hne
        exact h.ordinary _ (List.mem_of_getElem? (h.begins 0 (List.length_pos_iff.2 hne))) hzero
      · rw [← heq, ← hkey, hpos, hnil]
        rfl
    split
    · refine ⟨by simp [hpos], fun i hi => ?_, fun c hc => ?_, h.written⟩
      · rw [List.length_dropLast] at hi
        rw [List.getElem?_dropLast, if_pos hi, h.begins i (by omega)]
      · exact h.ordinary c (List.mem_of_mem_dropLast hc)
    · rename_i hzero
      rwa [not_not.1 (mt hnil.2 hzero)] at h ⊢
  split
  · exact h.store hlt 0
  split
  · obtain ⟨hzero, hwritten⟩ := clear_eq s.pos s
    refine ⟨hzero, by simp [Begins], by simp, fun i hi => ?_⟩
    rcases hwritten i hi with hle | hmem
    · omega
    · exact h.written i hmem
  · refine ⟨by simp [hpos], fun i hi => ?_, fun c hc => ?_, h.written⟩
    · rcases Nat.lt_or_ge i line.length with hlow | hge
      · rw [List.getElem?_append_left hlow, h.begins i hlow]
      · obtain rfl : i = line.length := by simp at hi; omega
        simp [← hkey, hpos]
    · rcases List.mem_append.1 hc with hc | hc
      · exact h.ordinary c hc
      · rwa [List.mem_singleton.1 hc]

theorem Holds.next (hlt : line.length < count) (hkey : key ≠ 10 ∧ key ≠ 13) :
    ∃ next, Holds count next (edit line key) ∧
      ∀ keys, readline count (key :: keys) s = readline count keys next := by
  refine ⟨_, (h.store hlt key).interpret hlt (Function.update_self _ _ _), fun keys => ?_⟩
  rw [readline, if_pos (by rwa [store_pos, h.pos]), if_neg (by simp [hkey])]

theorem Holds.readline (hkeys : ∀ c ∈ keys, c ≠ 10 ∧ c ≠ 13)
    (hfits : ∀ l ∈ keys.scanl edit line, l.length < count) :
    ∃ last, readline count (keys ++ [13]) s = some last ∧
      Holds count last (keys.foldl edit line) ∧ (keys.foldl edit line).length < count ∧
      last.buf (keys.foldl edit line).length = 0 := by
  induction keys generalizing s line with
  | nil =>
    have hlt : line.length < count := hfits line (by simp)
    refine ⟨_, ?_, (h.store hlt 13).store hlt 0, hlt, ?_⟩
    · rw [List.nil_append, Editor.readline, if_pos (by rwa [store_pos, h.pos]), if_pos (.inr rfl)]
    · rw [List.foldl_nil, ← h.pos]
      exact Function.update_self _ _ _
  | cons key keys ih =>
    obtain ⟨hkey, hkeys⟩ := List.forall_mem_cons.1 hkeys
    rw [List.scanl_cons, List.forall_mem_cons] at hfits
    obtain ⟨next, hnext, hread⟩ := h.next hfits.1 hkey
    rw [List.cons_append, hread]
    exact ih hnext hkeys hfits.2

/-- The key after a line that fills the buffer is stored behind it. -/
theorem Holds.full (hfull : line.length = count) (key : UInt8) (keys : CStr) :
    ∃ last, Editor.readline count (key :: keys) s = some last ∧ count ∈ last.written := by
  refine ⟨s.store s.pos key, ?_, List.mem_cons.2 (.inl (by rw [h.pos, hfull]))⟩
  rw [Editor.readline, if_neg (by rw [store_pos, h.pos]; omega)]

theorem Holds.overflow (hle : line.length ≤ count) (hkeys : ∀ c ∈ keys, c ≠ 10 ∧ c ≠ 13)
    (hlong : ∃ l ∈ keys.scanl edit line, count ≤ l.length) :
    ∃ last, Editor.readline count (keys ++ [13]) s = some last ∧ count ∈ last.written := by
  induction keys generalizing s line with
  | nil => exact h.full (by simp at hlong; omega) 13 []
  | cons key keys ih =>
    rcases Nat.lt_or_eq_of_le hle with hlt | hfull
    · obtain ⟨hkey, hkeys⟩ := List.forall_mem_cons.1 hkeys
      obtain ⟨next, hnext, hread⟩ := h.next hlt hkey
      have hgrow : (edit line key).length ≤ line.length + 1 := by grind [edit]
      simp only [List.scanl_cons, List.mem_cons, exists_eq_or_imp] at hlong
      rw [List.cons_append, hread]
      exact ih hnext (by omega) hkeys (hlong.resolve_left (by omega))
    · exact h.full hfull key _

end

end Editor

/-- `readline` edits the line as it should if and only if the line stays shorter than the buffer. -/
theorem edits_line_iff (hkeys : ∀ c ∈ keys, c ≠ 10 ∧ c ≠ 13) (buf : Bytes) :
    EditsLine count keys buf ↔ Fits count keys := by
  have hstart : Editor.Holds count ⟨buf, 0, []⟩ [] := ⟨rfl, by simp [Begins], by simp, by simp⟩
  constructor
  · intro ⟨last, hread, hwritten, _⟩
    by_contra hnot
    simp only [Fits, not_forall, Nat.not_lt] at hnot
    obtain ⟨l, hl, hle⟩ := hnot
    obtain ⟨last', hread', hcount⟩ := hstart.overflow (Nat.zero_le _) hkeys ⟨l, hl, hle⟩
    obtain rfl : last = last' := by simpa [hread] using hread'
    exact absurd (hwritten count hcount) (by omega)
  · intro hfits
    obtain ⟨last, hread, hlast, hlt, hzero⟩ := hstart.readline hkeys hfits
    exact ⟨last, hread, hlast.written, fun _ => ⟨hlast.begins, hzero⟩, _, hlt, hzero⟩

theorem edits_line_short : EditsLine 4 [97, 98, 8, 99] (fun _ => 7) :=
  (edits_line_iff (by simp) _).2 (by unfold Fits; decide)

/-- The fourth character fills the buffer, and the carriage return is stored behind it. -/
theorem not_edits_line_full : ¬EditsLine 4 [97, 98, 99, 100] (fun _ => 0) := by
  intro ⟨last, hread, hwritten, _⟩
  obtain rfl := Option.some.inj hread
  exact absurd (hwritten 4 (by decide)) (by decide)

end LosKernel.Shell
