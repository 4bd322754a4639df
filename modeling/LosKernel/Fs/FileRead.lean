import LosKernel.Fs.FileAppend

/-!
# Reading a file

`file_read` collects the addresses of the blocks it needs and copies chunk by chunk;
`wp_read_loop` says what the loop stores to the caller's buffer. It goes on when `io_buf` is
refused, so it reads the right bytes exactly when both of its requests are served. What a sequence
of writes appended is read back by any sequence of reads from the start.
-/

namespace LosKernel

open Prog

variable {ok : Stop → Prop} {s last : Kernel} {idx fuel n k : Nat} {allBlocks : Nat → UInt32}
  {bytesRead size count : UInt32} {dst : Bytes} {Q : UInt32 × Bytes → Kernel → Prop}
  {r : Int × Bytes} {inode : INode} {p q : Ptr} {sync : INode → Call Unit} {records : Nat → Prop}

/-- The position in an open file. -/
abbrev Kernel.pos (s : Kernel) (idx : Nat) : Nat := (s.fileTable idx).fdPos.toNat

theorem Kernel.pos_add (s : Kernel) (idx : Nat) (n : UInt32) :
    ((s.fileTable idx).fdPos + n).toNat = (s.pos idx + n.toNat) % 2 ^ 32 :=
  UInt32.toNat_add _ _

/-- The state after the file position moved on by `n` bytes. -/
def Kernel.advance (s : Kernel) (idx n : Nat) : Kernel :=
  { s with fileTable := setPos s.fileTable idx ((s.fileTable idx).fdPos + UInt32.ofNat n) }

theorem Kernel.advance_zero (s : Kernel) (idx : Nat) : s.advance idx 0 = s := by
  have hpos : (s.fileTable idx).fdPos + UInt32.ofNat 0 = (s.fileTable idx).fdPos := by simp
  rw [Kernel.advance, hpos, setPos_self]

theorem Kernel.advance_advance (s : Kernel) (idx n m : Nat) :
    (s.advance idx n).advance idx m = s.advance idx (n + m) := by
  simp [Kernel.advance, UInt32.add_assoc]

/-- One iteration of the copy loop of `file_read` reads a chunk that ends at the end of a block or
of the request. -/
theorem wp_read_round (hmore : bytesRead.toNat < size.toNat) (hpos : s.pos idx < 2 ^ 32 - 512)
    (hbad : 140 ≤ s.pos idx / 512 → ok .badAccess)
    (hrange : s.pos idx / 512 < 140 → (allBlocks (s.pos idx / 512)).toNat ≤ maxLba)
    (hnext : s.pos idx / 512 < 140 → ∀ n : UInt32,
      n.toNat = Pages.chunk 512 (s.pos idx) (size.toNat - bytesRead.toNat) →
      (bytesRead + n).toNat = bytesRead.toNat + n.toNat → (s.advance idx n.toNat).pos idx =
      s.pos idx + n.toNat →
      wp ok (readLoop idx (some q) allBlocks size fuel (bytesRead +
      n) (Bytes.blit dst bytesRead.toNat
      (Bytes.shift (sectorAt s.disk (allBlocks (s.pos idx / 512)).toNat) (s.pos idx % 512))
      n.toNat)) (s.advance idx n.toNat) Q) :
    wp ok (readLoop idx (some q) allBlocks size (fuel + 1) bytesRead dst) s Q := by
  have hsub : (size - bytesRead).toNat = size.toNat - bytesRead.toNat :=
    UInt32.toNat_sub_of_le _ _ (UInt32.le_iff_toNat_le.2 (by omega))
  have hchunk := chunk_size_toNat (s.fileTable idx).fdPos (size - bytesRead)
  simp only [readLoop, UInt32.lt_iff_toNat_lt.2 hmore, if_true, wp_bind, wp_state]
  generalize (if size - bytesRead < 512 - (s.fileTable idx).fdPos % 512 then
    size - bytesRead else 512 - (s.fileTable idx).fdPos % 512) = n at hchunk ⊢
  have hof : UInt32.ofNat n.toNat = n := UInt32.ofNat_toNat
  have hlt := size.toNat_lt
  rw [hsub] at hchunk
  have hle : n.toNat ≤ size.toNat - bytesRead.toNat := hchunk ▸ Pages.chunk_le ..
  have hread : (bytesRead + n).toNat = bytesRead.toNat + n.toNat := by
    rw [UInt32.toNat_add]
    omega
  have hmoved : (s.advance idx n.toNat).pos idx = s.pos idx + n.toNat := by
    rw [Pages.chunk] at hchunk
    rw [Kernel.pos, Kernel.advance, hof, setPos_fdPos, Kernel.pos_add]
    omega
  simp only [wp_access, decide_eq_true_eq, decide_eq_false_iff_not]
  refine ⟨fun hin => wp_read_sector (.inr (hrange hin)) ?_,
    fun hout => hbad (Nat.le_of_not_lt hout)⟩
  have hrest := hnext hin n hchunk hread hmoved
  rw [Kernel.advance, hof] at hrest
  exact hrest

/-- The copy loop of `file_read` stores the bytes from the file position on behind those it has
stored before. -/
theorem wp_read_loop (hle : bytesRead.toNat ≤ size.toNat)
    (hpos : s.pos idx + (size.toNat - bytesRead.toNat) ≤ 71680)
    (hrange : ∀ k, s.pos idx / 512 ≤ k → 512 * k < s.pos idx + (size.toNat - bytesRead.toNat) →
      (allBlocks k).toNat ≤ maxLba) (hfuel : size.toNat - bytesRead.toNat < fuel) :
    wp ok (readLoop idx (some q) allBlocks size fuel bytesRead dst) s fun r last =>
      r.1 = size ∧ last = s.advance idx (size.toNat - bytesRead.toNat) ∧
      ∀ i, r.2 i = if bytesRead.toNat ≤ i ∧ i < size.toNat then
        Pages.byte 512 (fun k => sectorAt s.disk (allBlocks k).toNat)
          (s.pos idx + (i - bytesRead.toNat)) else dst i := by
  induction fuel generalizing s bytesRead dst with
  | zero => omega
  | succ fuel ih =>
    by_cases hmore : bytesRead.toNat < size.toNat
    · refine wp_read_round hmore (by omega) (by omega)
        (fun _ => hrange _ le_rfl (by omega)) ?_
      intro _ n hchunk hread hmoved
      have hpositive : 0 < n.toNat := hchunk ▸ Pages.chunk_pos (by decide) (by omega)
      have hnle : n.toNat ≤ size.toNat - bytesRead.toNat := hchunk ▸ Pages.chunk_le ..
      refine wp_mono (ih ?_ ?_ ?_ ?_) ?_
      · omega
      · omega
      · exact fun k hk hlt => hrange k (by omega) (by omega)
      · omega
      · rintro r last ⟨hsize, rfl, hbytes⟩
        refine ⟨hsize, ?_, fun i => ?_⟩
        · rw [hread, Kernel.advance_advance, show n.toNat +
            (size.toNat - (bytesRead.toNat + n.toNat)) = size.toNat - bytesRead.toNat by omega]
        · rw [hbytes i, hread, hmoved]
          by_cases hrest : bytesRead.toNat + n.toNat ≤ i ∧ i < size.toNat
          · rw [if_pos hrest, if_pos (by omega), show s.pos idx +
              n.toNat + (i - (bytesRead.toNat + n.toNat)) =
              s.pos idx + (i - bytesRead.toNat) by omega]
            rfl
          · rw [if_neg hrest]
            by_cases hin : bytesRead.toNat ≤ i ∧ i < size.toNat
            · have hlt : i - bytesRead.toNat < Pages.chunk 512 (s.pos idx)
                  (size.toNat - bytesRead.toNat) := by omega
              rw [if_pos hin, Bytes.blit_inside (by omega) (by omega), Bytes.shift_apply,
                Pages.byte_chunk (by decide) hlt]
            · rw [if_neg hin, Bytes.blit_outside (by omega)]
    · obtain rfl : bytesRead = size := UInt32.toNat_inj.1 (by omega)
      rw [readLoop, if_neg (UInt32.lt_irrefl _)]
      refine ⟨rfl, ?_, fun i => ?_⟩
      · rw [Nat.sub_self, Kernel.advance_zero]
      · rw [if_neg (by omega)]

/-- Without `io_buf` the loop can only end at once; its first `memset` fails. -/
theorem wp_read_loop_none (hok : ok .assertFailed)
    (hpos : s.pos idx / 512 < 140) (hQ : ∀ r, Q r s) :
    wp ok (readLoop idx none allBlocks size (fuel + 1) 0 dst) s Q := by
  simp only [readLoop, wp_ite, wp_bind, wp_state, wp_pure, wp_access, wp_assert,
    hpos, hok, hQ, decide_true, Option.isSome_none, implies_true, Bool.false_eq_true,
    Bool.true_eq_false, false_implies, and_self]

/-! ## The blocks that are read -/

/-- The addresses that `file_read` collects are those of the blocks from the first to the last. -/
theorem wp_collect_read {startIdx endIdx : Nat} (hle : startIdx ≤ endIdx) (hlt : endIdx < 140)
    (htable : 12 ≤ endIdx → inode.sector 12 ≠ 0 ∧ (inode.sector 12).toNat ≤ maxLba) :
    wp ok (collectRead inode startIdx endIdx) s fun allBlocks last => last = s ∧
      ∀ k, startIdx ≤ k → k ≤ endIdx → allBlocks k = blockOf s.disk inode k := by
  have hread : ∀ k, 12 ≤ k → k ≤ endIdx →
      withTable (tableAt s.disk (inode.sector 12).toNat) k = blockOf s.disk inode k := by
    intro k hk hend
    rw [withTable, if_pos (by omega), blockOf_ge _ _ hk]
  unfold collectRead
  split
  · rename_i heq
    subst heq
    split
    · refine ⟨rfl, fun k hk hend => ?_⟩
      obtain rfl : k = startIdx := by omega
      rw [Function.update_self, blockOf_lt _ _ (by omega)]
    · simp only [wp_bind, wp_ide_read_words, wp_pure]
      exact ⟨fun _ => ⟨trivial, fun k hk hend => hread k (by omega) hend⟩, by omega⟩
  · split
    · refine ⟨rfl, fun k hk hend => ?_⟩
      rw [blockOf_lt _ _ (by omega)]
      exact if_pos ⟨hk, hend⟩
    · obtain ⟨hne, hrange⟩ := htable (by omega)
      split
      all_goals
        simp only [wp_bind, wp_assert, wp_ide_read_words, wp_pure, hne, ne_eq,
          not_false_eq_true, decide_true, of_true]
        refine ⟨fun _ => ⟨trivial, fun k hk hend => ?_⟩, by omega⟩
      · by_cases hdirect : k < 12
        · rw [if_pos ⟨hk, hdirect⟩, blockOf_lt _ _ hdirect]
        · rw [if_neg (by omega), hread k (by omega) hend]
      · exact hread k (by omega) hend

/-! ## Reading -/

/-- The indirect table of a well-formed file can be read where it is needed. -/
theorem FileOk.table (h : FileOk s inode) (ha : Areas s.part) (hk : k ≤ inode.iSize.toNat / 512)
    (htable : 12 ≤ k) : inode.sector 12 ≠ 0 ∧ (inode.sector 12).toNat ≤ maxLba := by
  rcases h with ⟨hempty, -⟩ | hb
  · simp [hempty] at hk
    omega
  · have htaken := hb.table (by omega)
    exact ⟨htaken.ne_zero ha, htaken.in_range⟩

theorem FileOk.in_range (h : FileOk s inode) (hk : 512 * k < inode.iSize.toNat) :
    (blockOf s.disk inode k).toNat ≤ maxLba := by
  rcases h with ⟨hempty, -⟩ | hb
  · simp [hempty] at hk
  · exact (hb.taken k (by omega)).in_range

/-- `size` bytes from the file position on are in the buffer, and the position has moved on. -/
structure SliceRead (s : Kernel) (idx : Nat) (inode : INode) (size : Nat) (r : Int × Bytes)
    (last : Kernel) : Prop where
  result : r.1 = size
  state : ∃ heap, last = { s.advance idx size with heap := heap }
  bytes : ∀ i, r.2 i = if i < size then
    Pages.byte 512 (filePage s.disk inode) (s.pos idx + i) else 0

/-- The part of `file_read` after the number of bytes is known, from what is known of the
addresses it collects and what its loop does with them. It stops when `io_buf` is refused and
`all_blocks` is not. -/
theorem wp_read_body_of {P : (Nat → UInt32) → Prop} {Q : Int × Bytes → Kernel → Prop}
    (hlimit : s.pos idx / 512 < 139 ∧
      ((s.fileTable idx).fdPos + size).toNat / 512 < 139)
    (hcollect : ∀ heap, wp ok (collectRead inode (s.pos idx / 512)
      (((s.fileTable idx).fdPos + size).toNat / 512)) { s with heap := heap }
        fun allBlocks last => last = { s with heap := heap } ∧ P allBlocks)
    (hrefused : ∀ last, s.grant (s.heap.requests + 1) (512 + 48) = false → Q (-1, fun _ => 0) last)
    (hnone : s.grant s.heap.requests 512 = false →
      s.grant (s.heap.requests + 1) (512 + 48) = true → ok .assertFailed)
    (hloop : Granted s → ∀ heap q allBlocks, P allBlocks →
      wp ok (readLoop idx (some q) allBlocks size (size.toNat + 1) 0 fun _ => 0)
        { s with heap := heap } fun r last =>
          ∀ heap, Q ((r.1.toNat : Int), r.2) { last with heap := heap }) :
    wp ok (readBody idx inode size) s Q := by
  unfold readBody
  rw [wp_bind, wp_state, wp_bind, wp_sys_malloc]
  refine ⟨fun hfirst => ?_, fun hfirst => ?_⟩
  all_goals
    rw [wp_bind, wp_sys_malloc]
    refine ⟨fun hsecond => ?_, hrefused _⟩
    simp only [wp_bind, wp_assert, hlimit, and_self, decide_true, of_true]
    refine wp_mono (hcollect _) ?_
    rintro allBlocks mid ⟨hmid, hall⟩
    rw [hmid]
  · refine wp_mono (hloop ⟨hfirst, hsecond⟩ _ _ _ hall) fun r last hr => ?_
    exact ⟨fun _ => hr _, fun h => Bool.noConfusion h⟩
  · refine wp_read_loop_none (hnone hfirst hsecond) (Nat.lt_succ_of_lt hlimit.1) fun r => ?_
    simpa using hnone hfirst hsecond

/-- The result of `file_read` for `size` bytes. -/
def ReadResult (s : Kernel) (idx : Nat) (inode : INode) (size : Nat) (r : Int × Bytes)
    (last : Kernel) : Prop :=
  (s.grant (s.heap.requests + 1) (512 + 48) = false ∧ r.1 = -1) ∨
    (Granted s ∧ SliceRead s idx inode size r last)

/-- `file_read` of bytes that the file has, with both block indices below the limit. It stops when
`io_buf` is refused and `all_blocks` is not. -/
theorem wp_read_body (hfile : FileOk s inode) (ha : Areas s.part)
    (hend : s.pos idx + size.toNat ≤ inode.iSize.toNat)
    (hlimit : (s.pos idx + size.toNat) / 512 < 139)
    (hok : s.grant s.heap.requests 512 = false →
      s.grant (s.heap.requests + 1) (512 + 48) = true → ok .assertFailed) :
    wp ok (readBody idx inode size) s (ReadResult s idx inode size.toNat) := by
  have hsum : ((s.fileTable idx).fdPos + size).toNat = s.pos idx + size.toNat := by
    rw [Kernel.pos_add]
    omega
  have hstart : s.pos idx / 512 < 139 := by omega
  refine wp_read_body_of (P := fun allBlocks => ∀ k, s.pos idx / 512 ≤ k →
      k ≤ ((s.fileTable idx).fdPos + size).toNat / 512 → allBlocks k = blockOf s.disk inode k)
    ⟨hstart, by omega⟩
    (fun _ => wp_collect_read (by omega) (by omega) (hfile.table ha (by omega)))
    (fun _ hsecond => .inl ⟨hsecond, rfl⟩) hok ?_
  intro hgranted heap q allBlocks hall
  refine wp_mono (wp_read_loop (Nat.zero_le _) (show s.pos idx + _ ≤ _ by omega) ?_ (by omega)) ?_
  · intro k hk (hlt : _ < s.pos idx + _)
    rw [hall k hk (by omega)]
    exact hfile.in_range (by omega)
  · intro r last ⟨hr, hlast, hbytes⟩ heap
    refine .inr ⟨hgranted, by rw [← hr], ⟨heap, by rw [hlast]; rfl⟩, fun i => ?_⟩
    rw [hbytes i]
    by_cases hi : i < size.toNat
    · have hblock := hall ((s.pos idx + i) / 512) (by omega) (by omega)
      rw [if_pos ⟨Nat.zero_le _, hi⟩, if_pos hi]
      simp only [Pages.byte, filePage, hblock, UInt32.toNat_zero, Nat.sub_zero]
    · rw [if_neg fun h => hi h.2, if_neg hi]

/-- What is expected of `file_read`: with `n` the number of bytes that were asked for and are there,
it returns -1 at the end of the file, and otherwise stores the `n` bytes from the file position on,
returns `n`, moves the position on by `n` and changes neither an inode nor the disk. -/
def ReadsSlice (s : Kernel) (idx : Nat) (inode : INode) (count : UInt32) : Prop :=
  let pos := s.pos idx
  let n := min count.toNat (inode.iSize.toNat - pos)
  ∃ r last, fileRead idx count s = .done r last ∧
    if n = 0 ∧ 0 < count.toNat then r.1 = -1
    else r.1 = n ∧ (List.range n).map r.2 = ((content s inode).drop pos).take n ∧
      (∀ i, n ≤ i → r.2 i = 0) ∧ last.pos idx = pos + n ∧
      last.inodes = s.inodes ∧ last.disk = s.disk

/-- The bytes that were read are a part of the content. -/
theorem SliceRead.slice (h : SliceRead s idx inode n r last)
    (hn : s.pos idx + n ≤ inode.iSize.toNat) :
    (List.range n).map r.2 = ((content s inode).drop (s.pos idx)).take n := by
  rw [content, Pages.take_drop_slice hn, Nat.zero_add]
  refine (Pages.slice_eq_map fun i hi => ?_).symm
  rw [h.bytes i, if_pos hi]

theorem SliceRead.pos (h : SliceRead s idx inode n r last) (hn : s.pos idx + n < 2 ^ 32) :
    last.pos idx = s.pos idx + n := by
  obtain ⟨heap, hlast⟩ := h.state
  rw [hlast]
  change ((setPos s.fileTable idx _) idx).fdPos.toNat = _
  rw [setPos_fdPos, Kernel.pos_add, UInt32.toNat_ofNat']
  omega

theorem SliceRead.open_file (h : SliceRead s idx inode n r last) (hopen : OpenFile s idx p inode) :
    OpenFile last idx p inode := by
  obtain ⟨heap, hlast⟩ := h.state
  rw [hlast]
  refine ⟨hopen.blocks, (setPos_fdInode ..).trans hopen.fd, hopen.memory, ?_⟩
  exact hopen.file.imp id fun hb => hb.congr (.of_part_eq rfl) rfl rfl

/-- The number of bytes that a read of `count` bytes finds. -/
def available (s : Kernel) (idx : Nat) (inode : INode) (count : UInt32) : Nat :=
  min count.toNat (inode.iSize.toNat - s.pos idx)

/-- `file_read` is the part after the number of bytes is known, unless the file ends here. -/
theorem file_read_eq (hopen : OpenFile s idx p inode) (hpos : s.pos idx ≤ inode.iSize.toNat)
    (hwrap : s.pos idx + count.toNat < 2 ^ 32) :
    fileRead idx count s =
      if available s idx inode count = 0 ∧ 0 < count.toNat then .done (-1, fun _ => 0) s
      else readBody idx inode (UInt32.ofNat (available s idx inode count)) s := by
  unfold available
  have hsum : ((s.fileTable idx).fdPos + count).toNat = s.pos idx + count.toNat := by
    rw [Kernel.pos_add]
    omega
  have hsub : (inode.iSize - (s.fileTable idx).fdPos).toNat =
      inode.iSize.toNat - s.pos idx :=
    UInt32.toNat_sub_of_le _ _ (UInt32.le_iff_toNat_le.2 hpos)
  have hzero : inode.iSize - (s.fileTable idx).fdPos = 0 ↔
      inode.iSize.toNat - s.pos idx = 0 := by
    rw [← hsub]
    exact ⟨fun h => by rw [h]; rfl, fun h => UInt32.toNat_inj.1 h⟩
  simp only [fileRead, fileInode, nonNull, derefInode, hopen.fd, hopen.memory, bind_run,
    state_run, pure_run, ite_run, UInt32.lt_iff_toNat_lt, hsum, hzero]
  by_cases hmore : inode.iSize.toNat < s.pos idx + count.toNat
  · rw [if_pos hmore]
    by_cases hend : inode.iSize.toNat - s.pos idx = 0
    · rw [if_pos hend, if_pos (by omega)]
    · rw [if_neg hend, if_neg (by omega), Nat.min_eq_right (by omega), ← hsub, UInt32.ofNat_toNat]
  · rw [if_neg hmore, if_neg (by omega), Nat.min_eq_left (by omega), UInt32.ofNat_toNat]

theorem available_le : available s idx inode count ≤ inode.iSize.toNat - s.pos idx :=
  Nat.min_le_right ..

/-- A read that is not at the end of the file, with both block indices below the limit. -/
theorem wp_file_read (hopen : OpenFile s idx p inode)
    (hpos : s.pos idx ≤ inode.iSize.toNat)
    (hwrap : s.pos idx + count.toNat < 2 ^ 32)
    (hlimit : (s.pos idx + available s idx inode count) / 512 < 139)
    (hmore : ¬(available s idx inode count = 0 ∧ 0 < count.toNat))
    (hok : s.grant s.heap.requests 512 = false →
      s.grant (s.heap.requests + 1) (512 + 48) = true → ok .assertFailed) :
    wp ok (fileRead idx count) s (ReadResult s idx inode (available s idx inode count)) := by
  have hrun := file_read_eq hopen hpos hwrap
  rw [if_neg hmore] at hrun
  have hle : available s idx inode count ≤ _ := available_le
  have hof : (UInt32.ofNat (available s idx inode count)).toNat = available s idx inode count := by
    rw [UInt32.toNat_ofNat']
    omega
  have hread : wp ok (readBody idx inode (UInt32.ofNat (available s idx inode count))) s
      (ReadResult s idx inode _) :=
    wp_read_body hopen.file hopen.blocks.areas (by omega) (by rwa [hof]) hok
  rw [hof] at hread
  unfold wp at hread ⊢
  rwa [hrun]

/-- `file_read` on a well-formed file reads as expected exactly when the file ends at the position
or both requests for memory are served. -/
theorem reads_slice_iff_granted (hopen : OpenFile s idx p inode)
    (hpos : s.pos idx ≤ inode.iSize.toNat)
    (hwrap : s.pos idx + count.toNat < 2 ^ 32)
    (hlimit : (s.pos idx + available s idx inode count) / 512 < 139) :
    ReadsSlice s idx inode count ↔
      (available s idx inode count = 0 ∧ 0 < count.toNat) ∨ Granted s := by
  have hle : available s idx inode count ≤ _ := available_le
  unfold ReadsSlice
  dsimp only
  rw [← available]
  by_cases hend : available s idx inode count = 0 ∧ 0 < count.toNat
  · simp [hend, file_read_eq hopen hpos hwrap]
  simp only [hend, false_or]
  constructor
  · intro ⟨r, last, hdone, hr, _⟩
    have hresult := wp_any_iff.1
      (wp_file_read hopen hpos hwrap hlimit hend fun _ _ => trivial) r last hdone
    rcases hresult with ⟨-, hfail⟩ | ⟨hgranted, -⟩
    · omega
    · exact hgranted
  · intro hgranted
    obtain ⟨r, last, hdone, hresult⟩ := wp_never_iff.1
      (wp_file_read hopen hpos hwrap hlimit hend fun hfirst => by simp [hgranted.1] at hfirst)
    rcases hresult with ⟨hrefused, -⟩ | ⟨-, hslice⟩
    · rw [hgranted.2] at hrefused
      exact Bool.noConfusion hrefused
    · obtain ⟨heap, hlast⟩ := hslice.state
      refine ⟨r, last, hdone, hslice.result, hslice.slice (by omega), ?_, ?_, ?_, ?_⟩
      · intro i hi
        rw [hslice.bytes i, if_neg (by omega)]
      · exact hslice.pos (by omega)
      · rw [hlast]
        rfl
      · rw [hlast]
        rfl

/-! ## Reading back what was written -/

/-- A buffer with the given bytes. -/
def bufferOf (data : List UInt8) : Bytes := fun i => data.getD i 0

/-- Buffers are written one after the other. -/
def writeAll (sync : INode → Call Unit) (idx : Nat) : List (List UInt8) → Call Unit
  | [] => pure ()
  | data :: rest => do
    let _ ← fileWriteWith (fun lba buf => ideWrite lba buf 1) sync idx (bufferOf data)
      (UInt32.ofNat data.length)
    writeAll sync idx rest

/-- The file position is set to the start of the file. -/
def rewind (idx : Nat) : Call Unit := do
  let s ← state
  storeFile idx { s.fileTable idx with fdPos := 0 }

/-- Reads of the given sizes, one after the other. The result is all the bytes that were read. -/
def readAll (idx : Nat) : List UInt32 → Call (List UInt8)
  | [] => pure []
  | count :: rest => do
    let r ← fileRead idx count
    let more ← readAll idx rest
    pure ((List.range r.1.toNat).map r.2 ++ more)

theorem map_buffer_of (data : List UInt8) :
    (List.range data.length).map (bufferOf data) = data := by
  refine List.ext_getElem (by simp) fun i hi hi' => ?_
  simp [bufferOf, hi']

theorem blocks_for_mono {n' : Nat} (h : n ≤ n') : blocksFor n ≤ blocksFor n' := by
  unfold blocksFor
  split <;> split <;> omega

/-- What is written is appended to the content. -/
theorem write_all_spec {writes : List (List UInt8)} (hopen : OpenFile s idx p inode)
    (hheap : HeapOk s) (hsync : StoresAt never sync inode.iNo records)
    (hsize : inode.iSize.toNat + writes.flatten.length < 71680)
    (henough : blocksFor ((inode.iSize.toNat + writes.flatten.length) / 512 + 1) ≤
      s.part.blockBitmap.free + usedBlocks inode) :
    ∃ last inode', writeAll sync idx writes s = .done () last ∧ OpenFile last idx p inode' ∧
      HeapOk last ∧ content last inode' = content s inode ++ writes.flatten ∧
      inode'.iSize.toNat = inode.iSize.toNat + writes.flatten.length := by
  induction writes generalizing s inode with
  | nil => exact ⟨s, inode, rfl, hopen, hheap, by simp, by simp⟩
  | cons data rest ih =>
    simp only [List.flatten_cons, List.length_append] at hsize henough ⊢
    have hlen : (UInt32.ofNat data.length).toNat = data.length := by
      rw [UInt32.toNat_ofNat']
      omega
    have hwrite : wp never (fileWriteWith (fun lba buf => ideWrite lba buf 1) sync idx
        (bufferOf data) (UInt32.ofNat data.length)) s
        (WriteOutcome s idx p inode (bufferOf data) (UInt32.ofNat data.length) records) :=
      wp_file_write hopen (puts_own_ide_write p) (fun _ => hsync) (by omega)
    obtain ⟨r, mid, hdone, hresult⟩ := wp_never_iff.1 hwrite
    cases hresult with
    | refused heap hrefused => exact absurd ⟨hheap _ _, hheap _ _⟩ hrefused
    | full _ hfew =>
      rw [EnoughBlocks, hlen] at hfew
      have hmono : blocksFor ((inode.iSize.toNat + data.length) / 512 + 1) ≤
          blocksFor ((inode.iSize.toNat + (data.length + rest.flatten.length)) / 512 + 1) :=
        blocks_for_mono (by omega)
      omega
    | @wrote _ inode' _ _ _ _ happended =>
      rw [hlen] at happended
      have hmid := happended.open_file hopen (by omega)
      have hgrown := happended.size_eq (by omega)
      have hheap' : HeapOk mid := by
        obtain ⟨pos, hlast⟩ := happended.rest
        rw [hlast]
        exact hheap
      have hno : inode'.iNo = inode.iNo := by rw [happended.same]
      have hfree := happended.free
      obtain ⟨last, inode'', hrest, hopen', hheap'', hcontent, hsize'⟩ :=
        ih hmid hheap' (hno ▸ hsync) (by omega) (by
          rw [hgrown, hfree, Nat.add_assoc]
          exact henough)
      refine ⟨last, inode'', ?_, hopen', hheap'', ?_, by omega⟩
      · simp only [writeAll, bind_run, hdone, hrest]
      · rw [hcontent, happended.content, map_buffer_of, List.append_assoc]

/-- The bytes from the file position on are read, as many as are asked for in all. -/
theorem read_all_spec {counts : List UInt32} (hopen : OpenFile s idx p inode) (hheap : HeapOk s)
    (hsize : inode.iSize.toNat < 71168)
    (hpos : s.pos idx ≤ inode.iSize.toNat)
    (hcounts : ∀ count ∈ counts, inode.iSize.toNat + count.toNat < 2 ^ 32) :
    ∃ last, readAll idx counts s = .done
      (((content s inode).drop (s.pos idx)).take
        (counts.map UInt32.toNat).sum) last := by
  induction counts generalizing s with
  | nil => exact ⟨s, by simp [readAll]⟩
  | cons count rest ih =>
    have hwrap : s.pos idx + count.toNat < 2 ^ 32 := by
      have := hcounts count List.mem_cons_self
      omega
    have hcounts' : ∀ count ∈ rest, inode.iSize.toNat + count.toNat < 2 ^ 32 :=
      fun c hc => hcounts c (List.mem_cons_of_mem _ hc)
    have hlen : ((content s inode).drop (s.pos idx)).length =
        inode.iSize.toNat - s.pos idx := by
      rw [List.length_drop, content, Pages.length_slice]
    have hle : available s idx inode count ≤ _ := available_le
    -- a read past the end stops at the end
    have hsplit : ((content s inode).drop (s.pos idx)).take
        ((count :: rest).map UInt32.toNat).sum =
        ((content s inode).drop (s.pos idx)).take (available s idx inode count) ++
        ((content s inode).drop (s.pos idx +
          available s idx inode count)).take (rest.map UInt32.toNat).sum := by
      rw [List.map_cons, List.sum_cons, List.take_add, ← List.drop_drop]
      congr 1
      · rw [List.take_eq_take_iff]
        unfold available
        omega
      · congr 1
        rw [List.drop_eq_drop_iff]
        unfold available
        omega
    rw [hsplit]
    by_cases hend : available s idx inode count = 0 ∧ 0 < count.toNat
    · have hrun := file_read_eq hopen hpos hwrap
      rw [if_pos hend] at hrun
      obtain ⟨last, hrest⟩ := ih hopen hheap hpos hcounts'
      simp [readAll, bind_run, hrun, hrest, hend.1]
    · obtain ⟨r, mid, hdone, hresult⟩ := wp_never_iff.1
        (wp_file_read hopen hpos hwrap (by omega) hend fun hfirst => by simp [hheap _ _] at hfirst)
      rcases hresult with ⟨hrefused, -⟩ | ⟨-, hslice⟩
      · simp [hheap _ _] at hrefused
      have hmoved := hslice.pos (by omega)
      have hmid := hslice.open_file hopen
      obtain ⟨heap, hstate⟩ := hslice.state
      have hheap' : HeapOk mid := by
        rw [hstate]
        exact hheap
      have hcontent : content mid inode = content s inode := by
        rw [hstate]
        rfl
      obtain ⟨last, hrest⟩ := ih hmid hheap' (by omega) hcounts'
      refine ⟨last, ?_⟩
      rw [hcontent, hmoved] at hrest
      have hbytes := hslice.slice (by omega)
      have hr : r.1.toNat = available s idx inode count := by rw [hslice.result, Int.toNat_natCast]
      simp only [readAll, bind_run, hdone, hrest, pure_run, hr, hbytes]

/-- `file_read` returns the right slice of a well-formed file exactly when the file ends at the
position or both requests for memory are served. Buffers that were appended are read back by any
sequence of reads from the start, as long as the file stays below the limit of `file_read` and
memory and blocks are there. -/
theorem file_read_returns_slice {s : Kernel} {idx : Nat} {p : Ptr} {inode : INode}
    (hopen : OpenFile s idx p inode) :
    (∀ count : UInt32, s.pos idx ≤ inode.iSize.toNat →
      s.pos idx + count.toNat < 2 ^ 32 →
      (s.pos idx + available s idx inode count) / 512 < 139 →
      (ReadsSlice s idx inode count ↔
        (available s idx inode count = 0 ∧ 0 < count.toNat) ∨ Granted s)) ∧
    ∀ (sync : INode → Call Unit) (records : Nat → Prop) (writes : List (List UInt8))
      (counts : List UInt32), HeapOk s → StoresAt never sync inode.iNo records →
      inode.iSize.toNat + writes.flatten.length < 71168 →
      blocksFor ((inode.iSize.toNat + writes.flatten.length) / 512 + 1) ≤
        s.part.blockBitmap.free + usedBlocks inode →
      (∀ count ∈ counts, inode.iSize.toNat + writes.flatten.length + count.toNat < 2 ^ 32) →
      ∃ last, (do writeAll sync idx writes; rewind idx; readAll idx counts : Call (List UInt8)) s =
        .done ((content s inode ++ writes.flatten).take (counts.map UInt32.toNat).sum) last := by
  refine ⟨fun count => reads_slice_iff_granted hopen, ?_⟩
  intro sync records writes counts hheap hsync hsize henough hcounts
  obtain ⟨mid, inode', hwrites, hmid, hheap', hcontent, hlen⟩ :=
    write_all_spec hopen hheap hsync (by omega) henough
  obtain ⟨start, hstart⟩ : ∃ start : Kernel,
      start = { mid with fileTable := setPos mid.fileTable idx 0 } := ⟨_, rfl⟩
  have hrewind : rewind idx mid = .done () start := by rw [hstart]; rfl
  have hpos : start.pos idx = 0 := by
    rw [hstart]
    exact congrArg UInt32.toNat (setPos_fdPos ..)
  have hopen' : OpenFile start idx p inode' := by
    rw [hstart]
    refine ⟨hmid.blocks, (setPos_fdInode ..).trans hmid.fd, hmid.memory, ?_⟩
    exact hmid.file.imp id fun hb => hb.congr (.of_part_eq rfl) rfl rfl
  have hsame : content start inode' = content mid inode' := by
    rw [hstart]
    rfl
  have hheap'' : HeapOk start := by
    rw [hstart]
    exact hheap'
  have hcounts' : ∀ count ∈ counts, inode'.iSize.toNat + count.toNat < 2 ^ 32 := by
    rw [hlen]
    exact hcounts
  obtain ⟨last, hread⟩ := read_all_spec hopen' hheap'' (by omega)
    (by rw [hpos]; exact Nat.zero_le _) hcounts'
  refine ⟨last, ?_⟩
  rw [hpos, hsame, hcontent] at hread
  simp only [bind_run, hwrites, hrewind]
  exact hread

/-- A read of ten bytes, and two writes that are read back by two reads. -/
theorem file_read_returns_slice_short : ReadsSlice (fileKernel shortFile) 3 shortFile 10 ∧
    ∃ last, (do writeAll (fun inode => inodeSync inode 512) 3 [[1, 2], [3]]; rewind 3
                readAll 3 [2, 600] : Call (List UInt8)) (fileKernel shortFile) =
      .done ((content (fileKernel shortFile) shortFile ++ [1, 2, 3]).take 602) last :=
  ⟨((file_read_returns_slice short_file_open).1 10 (by decide) (by decide) (by decide)).2
      (.inr ⟨rfl, rfl⟩),
    (file_read_returns_slice short_file_open).2 (fun inode => inodeSync inode 512) _
      [[1, 2], [3]] [2, 600] (fun _ _ => rfl) short_file_stores (by decide)
      (Nat.le_trans (by decide : 1 ≤ 4088) (Nat.le_add_right_of_le file_partition_free))
      (by simp [shortFile])⟩

/-- A kernel whose next request for memory is refused. -/
def refusingKernel : Kernel := { fileKernel shortFile with grant := fun k _ => k != 2 }

theorem refusing_open : OpenFile refusingKernel 3 2 shortFile :=
  ⟨short_file_open.blocks, rfl, rfl,
    short_file_open.file.imp id fun hb => hb.congr (.of_part_eq rfl) rfl rfl⟩

/-- `io_buf` is refused, `file_read` goes on without it and its `memset` fails. -/
theorem file_read_without_buffer : fileRead 3 10 refusingKernel = .stop .assertFailed ∧
      ¬ReadsSlice refusingKernel 3 shortFile 10 := by
  refine ⟨rfl, fun h => ?_⟩
  rcases (reads_slice_iff_granted refusing_open (by decide) (by decide) (by decide)).1 h with
    hend | hgranted
  · exact absurd hend (by decide)
  · exact Bool.noConfusion hgranted.1

end LosKernel
