import LosKernel.Lib.Bytes

/-!
# Byte sequences in pages

A sequence of bytes is kept in pages of a fixed size. `byte` reads it by position, `slice` reads a
part of it. Programs go page by page: `chunk` is how far the page of a position reaches,
`byte_chunk` reads a chunk, and `byte_write_chunk` says what a chunk that is written does to the
sequence.
-/

namespace LosKernel

variable {left count : Nat}

namespace Pages

variable {size : Nat} {page : Nat → Bytes} {pos i k : Nat}

/-- Byte `i` of the sequence. -/
def byte (size : Nat) (page : Nat → Bytes) (i : Nat) : UInt8 := page (i / size) (i % size)

/-- The `count` bytes from `pos` on. -/
def slice (size : Nat) (page : Nat → Bytes) (pos count : Nat) : List UInt8 :=
  (List.range count).map fun i => byte size page (pos + i)

/-- How many of `left` bytes from `pos` on lie in the page of `pos`. -/
def chunk (size pos left : Nat) : Nat := min left (size - pos % size)

@[simp] theorem length_slice (size : Nat) (page : Nat → Bytes) (pos count : Nat) :
    (slice size page pos count).length = count := by
  simp [slice]

theorem slice_add (size : Nat) (page : Nat → Bytes) (pos first second : Nat) :
    slice size page pos (first + second) =
      slice size page pos first ++ slice size page (pos + first) second := by
  simp [slice, List.range_add, Nat.add_assoc]

theorem take_drop_slice {first total : Nat} (h : first + count ≤ total) :
    ((slice size page pos total).drop first).take count = slice size page (pos + first) count := by
  obtain ⟨rest, rfl⟩ := Nat.le.dest h
  rw [Nat.add_assoc, slice_add, slice_add, List.drop_left' (length_slice ..),
    List.take_left' (length_slice ..)]

theorem slice_eq_map {b : Bytes} (h : ∀ i < count, byte size page (pos + i) = b i) :
    slice size page pos count = (List.range count).map b :=
  List.map_congr_left fun i hi => h i (List.mem_range.1 hi)

theorem chunk_le (size pos left : Nat) : chunk size pos left ≤ left := Nat.min_le_left ..

theorem chunk_pos (hsize : 0 < size) (hleft : 0 < left) : 0 < chunk size pos left := by
  have := Nat.mod_lt pos hsize
  unfold chunk
  omega

theorem div_mod_chunk (hsize : 0 < size) (hi : i < chunk size pos left) :
    (pos + i) / size = pos / size ∧ (pos + i) % size = pos % size + i := by
  have hlt : pos % size + i < size := by
    unfold chunk at hi
    omega
  have hpos := Nat.div_add_mod pos size
  have hsum : pos + i = size * (pos / size) + (pos % size + i) := by omega
  constructor
  · rw [hsum, Nat.mul_add_div hsize, Nat.div_eq_of_lt hlt, Nat.add_zero]
  · rw [hsum, Nat.mul_add_mod, Nat.mod_eq_of_lt hlt]

theorem byte_chunk (hsize : 0 < size) (hi : i < chunk size pos left) :
    byte size page (pos + i) = page (pos / size) (pos % size + i) := by
  obtain ⟨hdiv, hmod⟩ := div_mod_chunk hsize hi
  rw [byte, hdiv, hmod]

/-- A position before `pos` is in an earlier page, or before `pos` in the same page. -/
theorem mod_lt_of_lt (h : i < pos) (hsame : i / size = pos / size) : i % size < pos % size := by
  have h1 := Nat.div_add_mod i size
  have h2 := Nat.div_add_mod pos size
  rw [hsame] at h1
  omega

/-- A chunk is written to the page of `pos`: what is before `pos` stays if the page holds it, and
the bytes from `pos` on are those of the chunk. -/
theorem byte_write_chunk {page' : Nat → Bytes} {old src : Bytes} (hsize : 0 < size)
    (hother : ∀ k < pos / size, page' k = page k)
    (hpage : ∀ j < size, page' (pos / size) j =
      Bytes.blit old (pos % size) src (chunk size pos left) j)
    (hold : ∀ j < pos % size, old j = page (pos / size) j) :
    (∀ i < pos, byte size page' i = byte size page i) ∧
      ∀ i < chunk size pos left, byte size page' (pos + i) = src i := by
  constructor
  · intro i hi
    unfold byte
    rcases Nat.lt_or_eq_of_le (Nat.div_le_div_right (Nat.le_of_lt hi)) with hlt | hsame
    · rw [hother _ hlt]
    · have hmod := mod_lt_of_lt hi hsame
      rw [hsame, hpage _ (Nat.mod_lt _ hsize), Bytes.blit_outside (.inl hmod), hold _ hmod]
  · intro i hi
    have hlt : pos % size + i < size := by
      unfold chunk at hi
      omega
    rw [byte_chunk hsize hi, hpage _ hlt, Bytes.blit_inside (by omega) (by omega),
      Nat.add_sub_cancel_left]

end Pages

end LosKernel
