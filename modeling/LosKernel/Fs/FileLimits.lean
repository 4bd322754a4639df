import LosKernel.Fs.FileRead

/-!
# The limits of files

What `file_write` and `file_read` do at the largest size, with counts whose sum with the size or
the position wraps around, and when the blocks run out. The checks of the two functions do not
agree at the top of the range, and what a write has allocated before it fails is not given back.
-/

namespace LosKernel

open Prog

variable {size count : UInt32} {fuel idx has will : Nat} {ok : Stop → Prop}
  {put : UInt32 → Bytes → Call Unit} {sync : INode → Call Unit} {s last : Kernel} {p : Ptr}
  {inode inode' : INode} {buf : Bytes} {allBlocks : Nat → UInt32} {records : Nat → Prop}
open Function (update_of_ne update_self)

/-- The program returns. -/
def Returns {α : Type} (m : Call α) (s : Kernel) : Prop := ∃ r last, m s = .done r last

theorem not_returns_of_wp {α : Type} {m : Call α} (h : wp any m s fun _ _ => False) :
    ¬Returns m s := by
  intro ⟨r, last, hdone⟩
  exact wp_any_iff.1 h r last hdone

/-! ## The largest size -/

/-- A write to the full 140 blocks passes the check of the size and fails the `ASSERT` on the number
of blocks, unless the file has no block and gets none. -/
theorem wp_write_body_limit (hok : ok .assertFailed) (hblocks : BlocksOk s.part)
    (hinode : s.inodes p = some inode) (hsize : inode.iSize.toNat + count.toNat = 71680) :
    wp ok (writeBody put sync idx p buf count) s fun r _ =>
      r = none ∧ inode.sector 0 = 0 ∧ s.part.blockBitmap.free = 0 := by
  have hwill : ∀ inode' : INode, inode'.iSize = inode.iSize →
      ¬(inode'.iSize + count).toNat / 512 + 1 ≤ 140 := by
    intro inode' hold
    rw [hold, UInt32.toNat_add]
    omega
  simp only [writeBody, wp_bind, wp_deref_inode, hinode, of_some]
  refine wp_mono (wp_first_block hblocks hinode) ?_
  rintro r mid (⟨-, rfl, rfl⟩ | ⟨-, rfl, inode', blocks', hgrew⟩ | ⟨hzero, rfl, hfull, rfl⟩)
  · simp only [wp_bind, wp_deref_inode, hinode, of_some, wp_assert, decide_eq_true_eq]
    exact ⟨fun hle => absurd hle (hwill inode rfl), fun _ => hok⟩
  · simp only [wp_bind, wp_deref_inode, hgrew.inode_eq, of_some, wp_assert, decide_eq_true_eq]
    exact ⟨fun hle => absurd hle (hwill inode' (by rw [hgrew.same])), fun _ => hok⟩
  · exact ⟨rfl, hzero, hfull⟩

/-- With enough free blocks, a write that passes the check of the size returns exactly when
memory is refused, or when the file stays below the 140 blocks and the record of its inode
lies in one sector. -/
theorem write_returns_iff (hopen : OpenFile s idx p inode)
    (hsize : inode.iSize.toNat + count.toNat ≤ 71680)
    (henough : blocksFor (min 140 ((inode.iSize.toNat + count.toNat) / 512 + 1)) ≤
      s.part.blockBitmap.free + usedBlocks inode) :
    Returns (fileWrite idx buf count) s ↔
      ¬Granted s ∨ inode.iSize.toNat + count.toNat < 71680 ∧ OneSector inode.iNo := by
  have hsum : (inode.iSize + count).toNat ≤ 71680 := by
    rw [UInt32.toNat_add]
    omega
  constructor
  · intro hreturns
    by_contra hnot
    rw [not_or, not_not] at hnot
    obtain ⟨hgranted, hnot⟩ := hnot
    refine not_returns_of_wp ?_ hreturns
    by_cases hlt : inode.iSize.toNat + count.toNat < 71680
    · refine wp_mono (wp_file_write hopen (puts_own_ide_write p)
        (fun _ => stores_at_inode_sync (.inr trivial)) hlt) ?_
      intro r last hresult
      cases hresult with
      | refused heap hrefused => exact hrefused hgranted
      | wrote _ _ hrecord _ => exact hnot ⟨hlt, hrecord.1⟩
      | full _ hfew =>
        rw [Nat.min_eq_right (by omega)] at henough
        omega
    · refine wp_file_write_body hopen hsum (fun h => absurd hgranted h) fun _ => ?_
      refine wp_mono (wp_write_body_limit trivial hopen.blocks hopen.memory (by omega)) ?_
      intro r last ⟨_, hzero, hfull⟩
      have hused : usedBlocks inode = 0 := by rw [usedBlocks, if_pos hzero]
      rw [hused, hfull, show (inode.iSize.toNat + count.toNat) / 512 + 1 = 141 by omega] at henough
      exact absurd henough (by decide)
  · intro h
    have hwp : wp never (fileWrite idx buf count) s fun _ _ => True := by
      rcases h with hrefused | ⟨hlt, hone⟩
      · exact wp_file_write_body hopen hsum (fun _ _ => trivial) fun h => absurd h hrefused
      · exact wp_mono (wp_file_write hopen (puts_own_ide_write p)
          (fun _ => stores_at_inode_sync (.inl hone)) hlt) fun _ _ _ => trivial
    obtain ⟨r, last, hdone, -⟩ := wp_never_iff.1 hwp
    exact ⟨r, last, hdone⟩

/-- A read whose first or last block index is not below 139 fails its `ASSERT`, unless
`all_blocks` is refused before. -/
theorem wp_read_body_limit
    (hok : s.grant (s.heap.requests + 1) (512 + 48) = true → ok .assertFailed)
    (hlimit : ¬(s.pos idx / 512 < 139 ∧
      ((s.fileTable idx).fdPos + size).toNat / 512 < 139)) :
    wp ok (readBody idx inode size) s fun r _ =>
      s.grant (s.heap.requests + 1) (512 + 48) = false ∧ r.1 = -1 := by
  unfold readBody
  rw [wp_bind, wp_state, wp_bind, wp_sys_malloc]
  constructor <;> intro hfirst
  all_goals
    rw [wp_bind, wp_sys_malloc]
    refine ⟨fun hsecond => ?_, fun hsecond => ⟨hsecond, rfl⟩⟩
    rw [wp_bind, wp_assert]
    exact ⟨fun h => absurd (of_decide_eq_true h) hlimit, fun _ => hok hsecond⟩

/-- A read of bytes that the file has returns exactly when `all_blocks` is refused, or when `io_buf`
is not and the read ends below the 139 blocks that the reader allows. -/
theorem read_returns_iff (hopen : OpenFile s idx p inode)
    (hend : s.pos idx + count.toNat ≤ inode.iSize.toNat) :
    Returns (fileRead idx count) s ↔
      s.grant (s.heap.requests + 1) (512 + 48) = false ∨
        s.grant s.heap.requests 512 = true ∧
          s.pos idx + count.toNat < 71168 := by
  have hlt := inode.iSize.toNat_lt
  have havailable : available s idx inode count = count.toNat := Nat.min_eq_left (by omega)
  have hmore : ¬(available s idx inode count = 0 ∧ 0 < count.toNat) := by omega
  have hsum : ((s.fileTable idx).fdPos + count).toNat = s.pos idx + count.toNat := by
    rw [Kernel.pos_add]
    omega
  have hrun : fileRead idx count s = readBody idx inode count s := by
    have h := file_read_eq hopen (by omega) (show _ + count.toNat < 2 ^ 32 by omega)
    rw [if_neg hmore, havailable, UInt32.ofNat_toNat] at h
    exact h
  by_cases hlimit : s.pos idx + count.toNat < 71168
  · have hread : ∀ ok : Stop → Prop, (s.grant s.heap.requests 512 = false →
        s.grant (s.heap.requests + 1) (512 + 48) = true → ok .assertFailed) →
        wp ok (fileRead idx count) s (ReadResult s idx inode (available s idx inode count)) :=
      fun ok => wp_file_read hopen (by omega) (by omega) (by omega) hmore
    constructor
    · rintro ⟨r, last, hdone⟩
      rcases wp_any_iff.1 (hread any fun _ _ => trivial) r last hdone with
        ⟨hrefused, -⟩ | ⟨hgranted, -⟩
      · exact .inl hrefused
      · exact .inr ⟨hgranted.1, hlimit⟩
    · intro h
      have hnever := hread never fun hfirst hsecond => by
        rcases h with hrefused | ⟨hserved, -⟩
        · exact Bool.noConfusion (hrefused.symm.trans hsecond)
        · exact Bool.noConfusion (hfirst.symm.trans hserved)
      obtain ⟨r, last, hdone, -⟩ := wp_never_iff.1 hnever
      exact ⟨r, last, hdone⟩
  · have hread : ∀ ok : Stop → Prop,
        (s.grant (s.heap.requests + 1) (512 + 48) = true → ok .assertFailed) →
        wp ok (readBody idx inode count) s fun r _ =>
          s.grant (s.heap.requests + 1) (512 + 48) = false ∧ r.1 = -1 :=
      fun ok hok => wp_read_body_limit hok (by rw [hsum]; omega)
    simp only [Returns, hrun, hlimit, and_false, or_false]
    constructor
    · rintro ⟨r, last, hdone⟩
      exact (wp_any_iff.1 (hread any fun _ => trivial) r last hdone).1
    · intro hrefused
      obtain ⟨r, last, hdone, -⟩ := wp_never_iff.1
        (hread never fun hserved => Bool.noConfusion (hrefused.symm.trans hserved))
      exact ⟨r, last, hdone⟩

/-- The limits agree below the top of the range only. With enough free blocks, `file_write`
returns for every count that passes its check exactly when memory is refused, or when the file
stays below 140 blocks and its inode record lies in one sector. `file_read` returns for bytes that
the file has exactly when `all_blocks` is refused, or when `io_buf` is not and the read ends below
139 blocks. -/
theorem file_limits_iff {s : Kernel} {idx : Nat} {p : Ptr} {inode : INode}
    (hopen : OpenFile s idx p inode) :
    (∀ (buf : Bytes) (count : UInt32), inode.iSize.toNat + count.toNat ≤ 71680 →
      blocksFor (min 140 ((inode.iSize.toNat + count.toNat) / 512 + 1)) ≤
        s.part.blockBitmap.free + usedBlocks inode →
      (Returns (fileWrite idx buf count) s ↔
        ¬Granted s ∨ inode.iSize.toNat + count.toNat < 71680 ∧ OneSector inode.iNo)) ∧
    ∀ count : UInt32, s.pos idx + count.toNat ≤ inode.iSize.toNat →
      (Returns (fileRead idx count) s ↔ s.grant (s.heap.requests + 1) (512 + 48) = false ∨
          s.grant s.heap.requests 512 = true ∧
            s.pos idx + count.toNat < 71168) :=
  ⟨fun _ _ => write_returns_iff hopen, fun _ => read_returns_iff hopen⟩

theorem file_limits_iff_short : Returns (fileWrite 3 UInt8.ofNat 70000) (fileKernel shortFile) ∧
      Returns (fileRead 3 500) (fileKernel shortFile) :=
  ⟨((file_limits_iff short_file_open).1 UInt8.ofNat 70000 (by decide)
      (Nat.le_trans (by decide : 139 ≤ 4088) (Nat.le_add_right_of_le file_partition_free))).2
      (.inr (by decide)),
    ((file_limits_iff short_file_open).2 500 (by decide)).2 (.inr (by decide))⟩

/-- A file without content. -/
def emptyFile : INode := { inodeInit 1 with iOpenCnts := 1 }

theorem empty_file_open : OpenFile (fileKernel emptyFile) 3 2 emptyFile :=
  ⟨bits_partition_blocks_ok 0 (by decide), rfl, rfl, .inl (by decide)⟩

/-- A write of 71680 bytes to an empty file passes the check of `file_write`. There are more than
enough free blocks, and an `ASSERT` fails. -/
theorem write_of_limit_fails : OpenFile (fileKernel emptyFile) 3 2 emptyFile ∧
      142 ≤ (fileKernel emptyFile).part.blockBitmap.free ∧
      fileWrite 3 UInt8.ofNat 71680 (fileKernel emptyFile) = .stop .assertFailed :=
  ⟨empty_file_open, Nat.le_trans (by decide : 142 ≤ 4088) file_partition_free, rfl⟩

/-! ## Counts that wrap around -/

/-- Sector 0 is not to be written. -/
def Guarded (put : UInt32 → Bytes → Call Unit) : Prop :=
  ∀ s buf, put 0 buf s = .stop .badAccess

/-- With one block collected and more than one to write, the second iteration of the copy loop
goes to sector 0, or reads past the end of `all_blocks`. -/
theorem wp_write_loop_stray {Q : UInt32 → Kernel → Prop} (hput : PutsOwn put p)
    (hguard : Guarded put) (hok : ok .badAccess) (hinode : s.inodes p = some inode)
    (hidx : inode.iSize.toNat / 512 < 140)
    (hown : OwnsBlock s inode (allBlocks (inode.iSize.toNat / 512)))
    (hrange : (allBlocks (inode.iSize.toNat / 512)).toNat ≤ maxLba)
    (hzero : inode.iSize.toNat / 512 + 1 < 140 → allBlocks (inode.iSize.toNat / 512 + 1) = 0)
    (hcount : 512 < count.toNat) :
    wp ok (writeLoop put idx p buf allBlocks count (fuel + 2) true 0) s Q := by
  simp only [writeLoop, wp_ite, wp_bind]
  refine ⟨fun _ => ?_, fun h => absurd h (by rw [UInt32.lt_iff_toNat_lt]; change ¬¬0 < _; omega)⟩
  refine wp_write_chunk hput hinode hidx hown hrange ?_
  intro old pos n hold hn
  have hfull : n = 512 - inode.iSize.toNat % 512 := by
    rw [hn, Pages.chunk, UInt32.sub_zero]
    omega
  have hof : (UInt32.ofNat n).toNat = n := by
    rw [UInt32.toNat_ofNat']
    omega
  have hsecond : (inode.iSize + UInt32.ofNat n).toNat / 512 = inode.iSize.toNat / 512 + 1 := by
    rw [UInt32.toNat_add]
    omega
  refine ⟨fun _ => ?_, fun h => absurd h ?_⟩
  · -- no address was collected for the block, or there is no such block
    simp only [writeChunk, wp_bind, wp_deref_inode, Kernel.putChunk, Kernel.setInode, update_self,
      of_some, wp_access, decide_eq_true_eq, hsecond]
    refine ⟨fun hlt => ?_, fun _ => hok⟩
    rw [hzero hlt]
    exact (wp_of_stop (hguard _ _)).2 hok
  · rw [UInt32.lt_iff_toNat_lt, UInt32.zero_add]
    omega

/-- What the copy loop needs of `all_blocks` for its first block, with none after it. -/
structure LastOnly (s : Kernel) (inode : INode) (has : Nat) (allBlocks : Nat → UInt32) : Prop where
  own : OwnsBlock s inode (allBlocks (has - 1))
  inRange : (allBlocks (has - 1)).toNat ≤ maxLba
  zero : has < 140 → allBlocks has = 0

theorem LastOnly.of_direct (hb : FileBlocks s inode has) (ha : Areas s.part) (hle : has ≤ 12) :
    LastOnly s inode has
      (Function.update (fun _ => 0) (has - 1) (inode.sector (has - 1))) := by
  have hpos := hb.pos
  have hblock := blockOf_lt s.disk inode (show has - 1 < 12 by omega)
  refine ⟨?_, ?_, fun _ => update_of_ne (by omega) ..⟩
  · rw [update_self, ← hblock]
    exact hb.owns ha (by omega)
  · rw [update_self, ← hblock]
    exact (hb.taken _ (by omega)).in_range

theorem LastOnly.of_table (hb : FileBlocks s inode has) (ha : Areas s.part) (hlt : 12 < has) :
    LastOnly s inode has (withTable (tableAt s.disk (inode.sector 12).toNat)) := by
  have hmax := hb.le
  have hread : ∀ k, 12 ≤ k → k < 140 →
      withTable (tableAt s.disk (inode.sector 12).toNat) k = blockOf s.disk inode k := by
    intro k hk hlt
    rw [withTable, if_pos ⟨hk, hlt⟩, blockOf_ge _ _ hk]
  refine ⟨?_, ?_, fun h => ?_⟩
  · rw [hread _ (by omega) (by omega)]
    exact hb.owns ha (by omega)
  · rw [hread _ (by omega) (by omega)]
    exact (hb.taken _ (by omega)).in_range
  · rw [hread _ (by omega) h]
    exact hb.unused hlt has le_rfl h

/-- Writing the indirect table back as it is changes nothing about the blocks. -/
theorem owns_write_table {lba : UInt32} (h : OwnsBlock s inode lba) :
    OwnsBlock (s.write (inode.sector 12)
      (Bytes.words fun j => withTable (tableAt s.disk (inode.sector 12).toNat) (12 + j))) inode
      lba := by
  obtain ⟨hne, hdirect | ⟨htable, heq | ⟨j, hj, rfl⟩⟩⟩ := h
  · exact ⟨hne, .inl hdirect⟩
  · exact ⟨hne, .inr ⟨htable, .inl heq⟩⟩
  · refine ⟨hne, .inr ⟨htable, .inr ⟨j, hj, ?_⟩⟩⟩
    have hblock := blockOf_write_table s inode
      (withTable (tableAt s.disk (inode.sector 12).toNat)) (show 12 + j < 140 by omega)
    rw [if_neg (by omega), blockOf_ge _ _ (by omega), withTable,
      if_pos (by omega), Nat.add_sub_cancel_left] at hblock
    exact hblock

/-- If the sum of size and count wraps around, `file_write` allocates nothing and collects the block
that the file ends in. -/
theorem wp_collect_write_wrap (hput : PutsOwn put p) (ha : Areas s.part) (hok : ok .badAccess)
    (hinode : s.inodes p = some inode) (hb : FileBlocks s inode has) (hle : will ≤ has) :
    wp ok (collectWrite put p inode has will) s fun r last =>
      ∃ allBlocks, r = some allBlocks ∧ last.inodes p = some inode ∧
        LastOnly last inode has allBlocks := by
  unfold collectWrite
  simp only [wp_ite]
  refine ⟨?_, fun hne => ⟨fun hwill => ?_, fun hwill => ⟨by omega, fun htable => ?_⟩⟩⟩
  · rintro rfl
    refine ⟨fun hdirect => ⟨_, rfl, hinode, .of_direct hb ha hdirect⟩, fun htable => ?_⟩
    have htaken := hb.table (by omega)
    simp only [wp_bind, wp_ide_read_words, htaken.in_range, htaken.ne_zero ha, ne_eq, forall_const]
    exact ⟨⟨_, rfl, hinode, .of_table hb ha (by omega)⟩,
      fun hlt => absurd htaken.in_range (by omega)⟩
  · simp only [wp_bind, wp_access, wp_assert, decide_eq_true_eq, decide_eq_false_iff_not,
      show will - has = 0 by omega]
    refine ⟨fun hlt => ?_, fun _ => hok⟩
    by_cases hdirect : has ≤ 12
    · have hlast : inode.sector (has - 1) ≠ 0 := by
        rw [← blockOf_lt s.disk inode (by omega)]
        exact (hb.taken _ (by omega)).ne_zero ha
      exact ⟨fun _ => ⟨_, rfl, hinode, .of_direct hb ha hdirect⟩, fun h => absurd hlast h⟩
    · -- the 13th block: the address of the indirect table is taken for it
      obtain rfl : has = 13 := by omega
      have htaken := hb.table (by omega)
      refine ⟨fun _ => ⟨_, rfl, hinode, ?_, ?_, fun _ => rfl⟩,
        fun h => absurd (htaken.ne_zero ha) h⟩
      · exact hb.owns_table ha (by omega)
      · exact htaken.in_range
  · have htaken := hb.table (by omega)
    simp only [wp_bind, wp_ide_read_words, htaken.in_range, htaken.ne_zero ha, ne_eq, forall_const,
      show will - has = 0 by omega, allocBlocks, wp_pure]
    refine ⟨hput.wp hinode (hb.owns_table ha (by omega)) htaken.in_range ?_,
      fun hlt => absurd htaken.in_range (by omega)⟩
    have hold := LastOnly.of_table hb ha (by omega)
    exact ⟨_, rfl, hinode, owns_write_table hold.own, hold.inRange, hold.zero⟩

/-- If the sum of size and count wraps around, `file_write` goes to sector 0 or reads past the end
of `all_blocks`. -/
theorem wp_write_body_wrap {Q : Option UInt32 → Kernel → Prop} (hput : PutsOwn put p)
    (hguard : Guarded put) (hok : ok .badAccess) (hblocks : BlocksOk s.part)
    (hinode : s.inodes p = some inode) (hfile : FileOk s inode)
    (hwrap : 2 ^ 32 ≤ inode.iSize.toNat + count.toNat) :
    wp ok (writeBody put sync idx p buf count) s Q := by
  have hlt := count.toNat_lt
  have hb : FileBlocks s inode (inode.iSize.toNat / 512 + 1) := by
    rcases hfile with ⟨hempty, -⟩ | hb
    · rw [hempty] at hwrap
      exact absurd hwrap (by change ¬_ ≤ 0 + _; omega)
    · exact hb
  have hmax := hb.le
  have hsum : (inode.iSize + count).toNat = inode.iSize.toNat + count.toNat - 2 ^ 32 := by
    rw [UInt32.toNat_add]
    omega
  have hfirst : inode.sector 0 ≠ 0 := by
    exact (hb.taken 0 hb.pos).ne_zero hblocks.areas
  obtain ⟨fuel, hfuel⟩ : ∃ fuel, count.toNat + 1 = fuel + 2 := ⟨count.toNat - 1, by omega⟩
  simp only [writeBody, firstBlock, hfirst, if_false, appendData, wp_bind, wp_pure,
    wp_deref_inode, hinode, of_some, wp_assert, decide_eq_false_iff_not]
  refine ⟨fun _ => ?_, by omega⟩
  refine wp_mono (wp_collect_write_wrap hput hblocks.areas hok hinode hb (by omega)) ?_
  rintro _ last ⟨allBlocks, rfl, hlast, honly⟩
  simp only [wp_bind, wp_deref_inode, hlast, of_some, hfuel]
  have hown := honly.own
  have hrange := honly.inRange
  exact wp_write_loop_stray hput hguard hok hlast (by omega) hown hrange honly.zero (by omega)

/-- `ide_write` of one sector that belongs to the file at `p` when it is written. -/
def putOwn (p : Ptr) (lba : UInt32) (buf : Bytes) : Call Unit := do
  let inode ← derefInode p
  let s ← state
  access (OwnsBlock s inode lba)
  ideWrite lba buf 1

theorem puts_own_put_own (p : Ptr) : PutsOwn (putOwn p) p := by
  intro s inode lba buf hinode hown
  simp [putOwn, derefInode, nonNull, access, bind_run, hinode, hown]

theorem guarded_put_own (p : Ptr) : Guarded (putOwn p) := by
  intro s buf
  have hzero : ∀ inode, ¬OwnsBlock s inode 0 := fun inode h => h.1 rfl
  cases hinode : s.inodes p with
  | none => simp [putOwn, derefInode, nonNull, bind_run, hinode]
  | some inode => simp [putOwn, derefInode, nonNull, access, bind_run, hinode, hzero]

/-- `file_write` that checks before each block that the block belongs to the file at `p`. -/
def fileWriteOwn (p : Ptr) : Nat → Bytes → UInt32 → Call Int :=
  fileWriteWith (putOwn p) fun inode => inodeSync inode 512

/-- What is expected of `file_write`, whatever the count: it accesses no memory outside of its
buffers, each block it writes belongs to the file at that time, and if it does not return -1, only
these blocks, the block bitmap and the inode table have changed, and not sector 0. -/
def WritesInside (s : Kernel) (idx : Nat) (p : Ptr) (buf : Bytes) (count : UInt32) : Prop :=
  wp (· ≠ .badAccess) (fileWriteOwn p idx buf count) s (fun _ _ => True) ∧
    ∀ r last, fileWrite idx buf count s = .done r last →
      r = -1 ∨ ∃ inode', last.inodes p = some inode' ∧ ∀ i, last.disk i ≠ s.disk i →
        512 ≤ i ∧ (InBlockBits s.part.sb i ∨ InTable s.part.sb i ∨
          ∃ lba, OwnsBlock last inode' lba ∧ InSector lba i)

/-- What is expected of `file_read`, whatever the count: it indexes `all_blocks` below 140 and
copies no more than the file has. -/
def ReadsInside (s : Kernel) (idx : Nat) (inode : INode) (count : UInt32) : Prop :=
  wp (· ≠ .badAccess) (fileRead idx count) s fun r _ =>
    r.1 ≤ (inode.iSize.toNat - s.pos idx : Nat)

theorem Appended.inside {m n : Nat} (h : Appended s idx p inode buf n m inode' last)
    (ha : Areas s.part) {i : Nat} (hi : last.disk i ≠ s.disk i) :
    512 ≤ i ∧ (InBlockBits s.part.sb i ∨ InTable s.part.sb i ∨
      ∃ lba, OwnsBlock last inode' lba ∧ InSector lba i) := by
  have hboot := ha.bootSector
  have hblock := ha.blockArea
  have hinode := ha.inodeArea
  by_cases hbits : InBlockBits s.part.sb i
  · exact ⟨by unfold InBlockBits at hbits; omega, .inl hbits⟩
  by_cases htable : InTable s.part.sb i
  · exact ⟨by unfold InTable at htable; omega, .inr (.inl htable)⟩
  by_contra hnot
  refine hi (h.disk i hbits htable fun lba hown hin => hnot ⟨?_, .inr (.inr ⟨lba, hown, hin⟩)⟩)
  have hne : lba.toNat ≠ 0 := fun h => hown.1 (UInt32.toNat_inj.1 h)
  unfold InSector at hin
  omega

section

variable (hopen : OpenFile s idx p inode)

include hopen

/-- A sum of size and count above the limit is refused, if it does not wrap around. -/
theorem file_write_above (hlarge : 71680 < (inode.iSize + count).toNat) :
    fileWriteWith put sync idx buf count s = .done (-1) s := by
  have hcheck : 512 * 140 < inode.iSize + count := by
    exact hlarge
  simp only [fileWriteWith, fileInode, derefInode, nonNull, bind_run, state_run,
    pure_run, hopen.fd, hopen.memory, if_pos hcheck]

/-- Without a wrap-around, `file_write` stays inside the file. -/
theorem wp_file_write_inside (hput : PutsOwn put p)
    (hsync : inode.iSize.toNat + count.toNat < 71680 → EnoughBlocks s inode count.toNat →
      StoresAt ok sync inode.iNo records) (hok : ok .assertFailed)
    (hwrap : inode.iSize.toNat + count.toNat < 2 ^ 32) :
    wp ok (fileWriteWith put sync idx buf count) s fun r last =>
      r = -1 ∨ ∃ inode', last.inodes p = some inode' ∧ ∀ i, last.disk i ≠ s.disk i →
        512 ≤ i ∧ (InBlockBits s.part.sb i ∨ InTable s.part.sb i ∨
          ∃ lba, OwnsBlock last inode' lba ∧ InSector lba i) := by
  have hsum : (inode.iSize + count).toNat = inode.iSize.toNat + count.toNat := by
    rw [UInt32.toNat_add]
    omega
  rcases Nat.lt_trichotomy (inode.iSize.toNat + count.toNat) 71680 with hlt | heq | hgt
  · refine wp_mono (wp_file_write hopen hput (hsync hlt) hlt) ?_
    intro r last hresult
    cases hresult with
    | refused => exact .inl rfl
    | full => exact .inl rfl
    | wrote _ _ _ happended =>
      exact .inr ⟨_, happended.inode_eq, fun i hi => happended.inside hopen.blocks.areas hi⟩
  · refine wp_file_write_body hopen (by omega) (fun _ _ => .inl rfl) fun _ => ?_
    refine wp_mono (wp_write_body_limit hok hopen.blocks hopen.memory heq) ?_
    rintro r last ⟨rfl, -⟩
    exact ⟨fun _ => .inl rfl, fun n h => nomatch h⟩
  · exact (wp_of_done (file_write_above hopen (by omega))).2 (.inl rfl)

/-- Without memory `file_write` fails and stays inside the file. -/
theorem writes_inside_of_refused (hlimit : (inode.iSize + count).toNat ≤ 71680)
    (hnot : ¬Granted s) : WritesInside s idx p buf count := by
  have hnone : ∀ put, wp never (fileWriteWith put (fun inode => inodeSync inode 512) idx buf
      count) s fun r _ => r = -1 := fun put =>
    wp_file_write_body hopen hlimit (fun _ _ => rfl) fun h => absurd h hnot
  exact ⟨wp_of_never (wp_mono (hnone _) fun _ _ _ => trivial),
    fun r last hdone => .inl ((wp_of_done hdone).1 (hnone _))⟩

/-- A write that wraps around leaves the file, unless it has no memory. -/
theorem writes_inside_of_wrap (hwrap : 2 ^ 32 ≤ inode.iSize.toNat + count.toNat) :
    WritesInside s idx p buf count ↔ ¬Granted s := by
  have hlt := count.toNat_lt
  have hsum : (inode.iSize + count).toNat ≤ 71680 := by
    rcases hopen.file with ⟨hempty, -⟩ | hb
    · rw [hempty] at hwrap
      exact absurd hwrap (by change ¬_ ≤ 0 + _; omega)
    · have hmax := hb.le
      rw [UInt32.toNat_add]
      omega
  refine ⟨fun ⟨hguarded, _⟩ hgranted => ?_, writes_inside_of_refused hopen hsum⟩
  have hbad : wp (· = .badAccess) (fileWriteOwn p idx buf count) s fun _ _ => False :=
    wp_file_write_body hopen hsum (fun h => absurd hgranted h) fun _ =>
      wp_write_body_wrap (puts_own_put_own p) (guarded_put_own p) rfl hopen.blocks hopen.memory
        (hopen.file.of_heap _) hwrap
  exact wp_absurd hbad hguarded (fun _ h hne => hne h) fun _ _ h _ => h

/-- A write that stores an inode whose record lies in two sectors overruns `io_buf`, unless it has
no memory. -/
theorem writes_inside_of_two_sectors (hsize : inode.iSize.toNat + count.toNat < 71680)
    (henough : EnoughBlocks s inode count.toNat) (hone : ¬OneSector inode.iNo) :
    WritesInside s idx p buf count ↔ ¬Granted s := by
  refine ⟨fun ⟨hguarded, _⟩ hgranted => ?_, writes_inside_of_refused hopen ?_⟩
  · have hbad : wp (· = .badAccess) (fileWriteOwn p idx buf count) s fun _ _ => False := by
      refine wp_mono (wp_file_write hopen (puts_own_put_own p)
        (fun _ => stores_at_inode_sync (.inr (by rfl))) hsize) ?_
      intro r last hresult
      cases hresult with
      | refused heap hrefused => exact hrefused hgranted
      | wrote _ _ hrecord _ => exact hone hrecord.1
      | full _ hfew => exact hfew henough
    exact wp_absurd hbad hguarded (fun _ h hne => hne h) fun _ _ h _ => h
  · rw [UInt32.toNat_add]
    omega

/-- `file_write` stays inside the file exactly when it has no memory, or the sum of size and count
does not wrap around and the write does not get to storing an inode whose record lies in two
sectors. -/
theorem writes_inside_iff :
    WritesInside s idx p buf count ↔ ¬Granted s ∨ inode.iSize.toNat + count.toNat < 2 ^ 32 ∧
      (OneSector inode.iNo ∨ 71680 ≤ inode.iSize.toNat + count.toNat ∨
        ¬EnoughBlocks s inode count.toNat) := by
  by_cases hwrap : 2 ^ 32 ≤ inode.iSize.toNat + count.toNat
  · rw [writes_inside_of_wrap hopen hwrap, or_iff_left fun h => by omega]
  by_cases hsync : OneSector inode.iNo ∨ 71680 ≤ inode.iSize.toNat + count.toNat ∨
      ¬EnoughBlocks s inode count.toNat
  · refine iff_of_true ⟨?_, ?_⟩ (.inr ⟨by omega, hsync⟩)
    · exact wp_mono (wp_file_write_inside hopen (puts_own_put_own p) (fun hlt henough =>
        stores_at_inode_sync (.inl (hsync.resolve_right fun h =>
          h.elim (Nat.not_le.2 hlt) (not_not.2 henough)))) (by decide) (by omega))
        fun _ _ _ => trivial
    · exact wp_any_iff.1 (wp_file_write_inside hopen (puts_own_ide_write p)
        (fun _ _ => stores_at_inode_sync (.inr trivial)) trivial (by omega))
  · obtain ⟨htwo, hrest⟩ := not_or.1 hsync
    obtain ⟨hlt, henough⟩ := not_or.1 hrest
    rw [writes_inside_of_two_sectors hopen (Nat.not_le.1 hlt) (not_not.1 henough) htwo,
      or_iff_left fun h => hsync h.2]

end

/-- With more bytes to read than 140 blocks have, the loop of `file_read` reads past the end of
`all_blocks`. Each iteration ends at the end of a block. -/
theorem wp_read_loop_stray {q : Ptr} {bytesRead : UInt32} {dst : Bytes}
    {Q : UInt32 × Bytes → Kernel → Prop} (hok : ok .badAccess)
    (hrange : ∀ k < 140, (allBlocks k).toNat ≤ maxLba) (hle : bytesRead.toNat ≤ size.toNat)
    (hpos : s.pos idx ≤ 71680)
    (hmore : 71680 < s.pos idx + (size.toNat - bytesRead.toNat))
    (hfuel : size.toNat - bytesRead.toNat < fuel) :
    wp ok (readLoop idx (some q) allBlocks size fuel bytesRead dst) s Q := by
  induction fuel generalizing s bytesRead dst with
  | zero => omega
  | succ fuel ih =>
    refine wp_read_round (by omega) (by omega) (fun _ => hok) (hrange _) ?_
    intro hin n hchunk hread hmoved
    rw [Pages.chunk] at hchunk
    exact ih (by omega) (by omega) (by omega) (by omega)

/-- The addresses that `file_read` collects can be read, also when the end of the read wrapped
around and lies before its start. -/
theorem wp_collect_read_wrap {startIdx endIdx : Nat} (hfile : FileOk s inode) (ha : Areas s.part)
    (hle : endIdx ≤ startIdx) (hstart : startIdx ≤ inode.iSize.toNat / 512) :
    wp ok (collectRead inode startIdx endIdx) s fun allBlocks last => last = s ∧
      ∀ k < 140, (allBlocks k).toNat ≤ maxLba := by
  have hzero : UInt32.toNat 0 ≤ maxLba := Nat.zero_le _
  have hblock : ∀ k < 140, (12 ≤ k → 12 ≤ startIdx) → (blockOf s.disk inode k).toNat ≤ maxLba := by
    intro k hk hneeded
    rcases hfile with ⟨hempty, hall⟩ | hb
    · have hnone : inode.iSize.toNat = 0 := by rw [hempty]; rfl
      rw [blockOf_lt _ _ (by omega), hall k (by omega)]
      exact hzero
    · by_cases hlt : k < inode.iSize.toNat / 512 + 1
      · exact (hb.taken k hlt).in_range
      · by_cases hdirect : k < 12
        · rw [blockOf_lt _ _ hdirect, hb.direct k (by omega) hdirect]
          exact hzero
        · rw [hb.unused (by omega) k (by omega) hk]
          exact hzero
  have htable : 12 ≤ startIdx → ∀ k < 140,
      (withTable (tableAt s.disk (inode.sector 12).toNat) k).toNat ≤ maxLba := by
    intro hneeded k hk
    by_cases hge : 12 ≤ k
    · rw [withTable, if_pos ⟨hge, hk⟩, ← blockOf_ge _ _ hge]
      exact hblock k hk fun _ => hneeded
    · rw [withTable, if_neg (by omega)]
      exact hzero
  unfold collectRead
  split
  · split
    · refine ⟨rfl, fun k hk => ?_⟩
      by_cases heq : k = endIdx
      · rw [heq, update_self, ← blockOf_lt s.disk inode (by omega)]
        exact hblock endIdx (by omega) (by omega)
      · rw [update_of_ne heq]
        exact hzero
    · obtain ⟨-, hrange⟩ := hfile.table ha hstart (by omega)
      simp only [wp_bind, wp_ide_read_words, wp_pure]
      exact ⟨fun _ => ⟨trivial, htable (by omega)⟩, by omega⟩
  · split
    · refine ⟨rfl, fun k hk => ?_⟩
      have hnone : ¬(startIdx ≤ k ∧ k ≤ endIdx) := by omega
      simp only [if_neg hnone]
      exact hzero
    · obtain ⟨hne, hrange⟩ := hfile.table ha hstart (by omega)
      rw [if_neg (by omega)]
      simp only [wp_bind, wp_assert, wp_ide_read_words, wp_pure, hne, ne_eq,
        not_false_eq_true, decide_true, of_true]
      exact ⟨fun _ => ⟨trivial, htable (by omega)⟩, by omega⟩

/-- `file_read` with an end that wraps around reads past the end of `all_blocks` if memory is
granted and the position is below the limit of the reader, and otherwise fails. -/
theorem wp_read_body_wrap (hfile : FileOk s inode) (ha : Areas s.part)
    (hpos : s.pos idx ≤ inode.iSize.toNat)
    (hwrap : 2 ^ 32 ≤ s.pos idx + count.toNat)
    (hbad : Granted s → s.pos idx < 71168 → ok .badAccess)
    (hassert : ¬(s.pos idx < 71168 ∧ Granted s) → ok .assertFailed) :
    wp ok (readBody idx inode count) s fun r _ =>
      s.grant (s.heap.requests + 1) (512 + 48) = false ∧ r.1 = -1 := by
  by_cases hlimit : s.pos idx < 71168
  · have hlt := count.toNat_lt
    have hsum : ((s.fileTable idx).fdPos + count).toNat = s.pos idx + count.toNat - 2 ^ 32 := by
      rw [Kernel.pos_add]
      omega
    have hleft : count.toNat - UInt32.toNat 0 = count.toNat := Nat.sub_zero _
    refine wp_read_body_of (by omega)
      (fun heap => wp_collect_read_wrap (hfile.of_heap heap) ha (by omega) (by omega))
      (fun _ hsecond => ⟨hsecond, rfl⟩) (fun hfirst _ => hassert fun h => ?_) ?_
    · exact Bool.noConfusion (hfirst.symm.trans h.2.1)
    · intro hgranted heap q allBlocks hrange
      exact wp_read_loop_stray (hbad hgranted hlimit) hrange (Nat.zero_le _)
        (show s.pos idx ≤ _ by omega) (show _ < s.pos idx + _ by omega) (by omega)
  · exact wp_read_body_limit (fun _ => hassert fun h => hlimit h.1) (by omega)

/-- Without a wrap-around, `file_read` stays inside the file. -/
theorem wp_file_read_inside (hopen : OpenFile s idx p inode)
    (hpos : s.pos idx ≤ inode.iSize.toNat) (hwrap : s.pos idx + count.toNat < 2 ^ 32) :
    ReadsInside s idx inode count := by
  have hle : available s idx inode count ≤ _ := available_le
  have hlt := inode.iSize.toNat_lt
  by_cases hend : available s idx inode count = 0 ∧ 0 < count.toNat
  · have hrun := file_read_eq hopen hpos hwrap
    rw [if_pos hend] at hrun
    refine (wp_of_done hrun).2 ?_
    omega
  by_cases hlimit : (s.pos idx + available s idx inode count) / 512 < 139
  · refine wp_mono (wp_file_read hopen hpos hwrap hlimit hend fun _ _ => by decide) ?_
    rintro r last (⟨-, hr⟩ | ⟨-, hr⟩)
    · omega
    · rw [hr.result]
      omega
  · have hrun := file_read_eq hopen hpos hwrap
    have hof : (UInt32.ofNat (available s idx inode count)).toNat =
        available s idx inode count := by
      rw [UInt32.toNat_ofNat']
      omega
    have hsum : ((s.fileTable idx).fdPos + UInt32.ofNat (available s idx inode count)).toNat =
        s.pos idx + available s idx inode count := by
      rw [Kernel.pos_add]
      omega
    rw [if_neg hend] at hrun
    have hread : wp (· ≠ .badAccess)
        (readBody idx inode (UInt32.ofNat (available s idx inode count))) s fun r _ =>
          s.grant (s.heap.requests + 1) (512 + 48) = false ∧ r.1 = -1 :=
      wp_read_body_limit (fun _ => by decide) (by omega)
    unfold ReadsInside wp
    rw [hrun]
    refine wp_mono hread ?_
    rintro r last ⟨_, hr⟩
    omega

/-- `file_read` stays inside the file exactly when the sum of position and count does not wrap
around, or the read fails for another reason before. -/
theorem reads_inside_iff (hopen : OpenFile s idx p inode)
    (hpos : s.pos idx ≤ inode.iSize.toNat) :
    ReadsInside s idx inode count ↔
      ¬(2 ^ 32 ≤ s.pos idx + count.toNat ∧
        s.pos idx < 71168 ∧ Granted s) := by
  by_cases hwrap : 2 ^ 32 ≤ s.pos idx + count.toNat
  · have hlt := count.toNat_lt
    have hpass : ¬inode.iSize < (s.fileTable idx).fdPos + count := by
      rw [UInt32.lt_iff_toNat_lt, Kernel.pos_add]
      omega
    have hrun : fileRead idx count s = readBody idx inode count s := by
      simp only [fileRead, fileInode, derefInode, nonNull, bind_run, state_run,
        pure_run, hopen.fd, hopen.memory, if_neg hpass]
    have hread : ∀ ok : Stop → Prop,
        (Granted s → s.pos idx < 71168 → ok .badAccess) →
        (¬(s.pos idx < 71168 ∧ Granted s) → ok .assertFailed) →
        wp ok (fileRead idx count) s fun r _ =>
          s.grant (s.heap.requests + 1) (512 + 48) = false ∧ r.1 = -1 := by
      intro ok hbad hassert
      unfold wp
      rw [hrun]
      exact wp_read_body_wrap hopen.file hopen.blocks.areas hpos hwrap hbad hassert
    constructor
    · rintro hinside ⟨_, hbelow⟩
      have hstop := hread (· = .badAccess) (fun _ _ => rfl) fun h => absurd hbelow h
      exact wp_absurd hstop hinside (fun _ h hne => hne h) fun _ _ h _ =>
        Bool.noConfusion (hbelow.2.2.symm.trans h.1)
    · intro hnot
      refine wp_mono (hread _ (fun h1 h2 => absurd ⟨hwrap, h2, h1⟩ hnot) fun _ => by decide) ?_
      rintro r last ⟨_, hr⟩
      omega
  · exact iff_of_true (wp_file_read_inside hopen hpos (by omega)) fun h => hwrap h.1

/-- `file_write` writes only where it may exactly when memory is refused, or the 32-bit sum of size
and count does not wrap around and the write stops before it stores the inode or the record of the
inode lies in one sector. `file_read` stays inside the file exactly when the sum of position and
count does not wrap around, or the read stops before. -/
theorem file_calls_inside_iff {s : Kernel} {idx : Nat} {p : Ptr} {inode : INode}
    (hopen : OpenFile s idx p inode) (hpos : s.pos idx ≤ inode.iSize.toNat)
    (buf : Bytes) (count : UInt32) :
    (WritesInside s idx p buf count ↔
      ¬Granted s ∨ inode.iSize.toNat + count.toNat < 2 ^ 32 ∧
        (OneSector inode.iNo ∨ 71680 ≤ inode.iSize.toNat + count.toNat ∨
          ¬EnoughBlocks s inode count.toNat)) ∧
    (ReadsInside s idx inode count ↔ ¬(2 ^ 32 ≤ s.pos idx + count.toNat ∧
        s.pos idx < 71168 ∧ Granted s)) :=
  ⟨writes_inside_iff hopen, reads_inside_iff hopen hpos⟩

theorem file_calls_inside_iff_short :
    WritesInside (fileKernel shortFile) 3 2 UInt8.ofNat 70000 ∧
      ReadsInside (fileKernel shortFile) 3 shortFile 70000 :=
  have hinside := file_calls_inside_iff short_file_open (by decide) UInt8.ofNat 70000
  ⟨hinside.1.2 (.inr ⟨by decide, .inl (by decide)⟩), hinside.2.2 fun h => absurd h.1 (by decide)⟩

/-- `ide_write` of one sector, up to the first write to sector 0. -/
def putUntilBoot (lba : UInt32) (buf : Bytes) : Call Unit :=
  if lba = 0 then halt .hang else ideWrite lba buf 1

/-- A write of 4294966796 bytes to a file of 500 bytes: the sum is 0, which passes the check. The
write leaves the file, and the first sector it goes to then is sector 0. -/
theorem write_reaches_boot_sector : OpenFile (fileKernel shortFile) 3 2 shortFile ∧
      ¬WritesInside (fileKernel shortFile) 3 2 UInt8.ofNat 4294966796 ∧
      fileWriteWith putUntilBoot (fun inode => inodeSync inode 512) 3 UInt8.ofNat 4294966796
        (fileKernel shortFile) = .stop .hang :=
  ⟨short_file_open, fun h => h.1 rfl, rfl⟩

/-! ## Blocks that run out -/

/-- What is expected of a `file_write` that runs out of blocks: it returns -1, the inode, the
content and the block bitmap are as before, and later, whenever the file is open as it was left, a
write of a size that is allowed fails no `ASSERT`. -/
def FailsCleanly (s : Kernel) (idx : Nat) (p : Ptr) (inode : INode) (buf : Bytes) (count : UInt32) :
    Prop :=
  ∃ last, fileWrite idx buf count s = .done (-1) last ∧ last.inodes p = some inode ∧
    content last inode = content s inode ∧ last.part.blockBitmap = s.part.blockBitmap ∧
    ∀ later buf' (count' : UInt32), OpenFile later idx p inode →
      inode.iSize.toNat + count'.toNat < 71680 →
        wp (· ≠ .assertFailed) (fileWrite idx buf' count') later fun _ _ => True

/-- There are too few free blocks for a write: none for the first block of an empty file, or fewer
than the blocks that are missing. -/
def RunsOut (s : Kernel) (inode : INode) (count : UInt32) : Prop :=
  (inode.sector 0 = 0 ∧ s.part.blockBitmap.free = 0 ∧ inode.iSize.toNat + count.toNat ≤ 71680) ∨
  (inode.iSize.toNat + count.toNat < 71680 ∧ ¬EnoughBlocks s inode count.toNat)

/-- With no free block at all, a write that needs one changes nothing. -/
theorem wp_write_body_full (hput : PutsOwn put p) (hblocks : BlocksOk s.part)
    (hinode : s.inodes p = some inode) (hfile : FileOk s inode) (hout : RunsOut s inode count)
    (hfull : s.part.blockBitmap.free = 0) :
    wp ok (writeBody put sync idx p buf count) s fun r last => r = none ∧ last = s := by
  simp only [writeBody, wp_bind, wp_deref_inode, hinode, of_some]
  refine wp_mono (wp_first_block hblocks hinode) ?_
  rintro r mid (⟨hne, rfl, hmid⟩ | ⟨-, rfl, inode', blocks', hgrew⟩ | ⟨-, rfl, -, rfl⟩)
  · obtain ⟨hzero, -⟩ | ⟨hlt, hfew⟩ := hout
    · exact absurd hzero hne
    have hsum : (inode.iSize + count).toNat = inode.iSize.toNat + count.toNat := by
      rw [UInt32.toNat_add]
      omega
    rw [EnoughBlocks, usedBlocks, if_neg hne] at hfew
    rw [hmid]
    simp only [wp_bind, wp_deref_inode, hinode, of_some, hsum, wp_assert, decide_eq_false_iff_not]
    refine ⟨fun _ => ?_, by omega⟩
    refine wp_mono (wp_collect_write hput hblocks hinode (hfile.file_blocks hne) (by omega)
      (by omega)) ?_
    rintro r last (⟨allBlocks, inode', rfl, hcollected⟩ | ⟨rfl, -, -, hsame⟩)
    · have := hcollected.free
      omega
    · exact ⟨rfl, hsame hfull⟩
  · have := hgrew.free
    omega
  · exact ⟨rfl, rfl⟩

/-- With no free block at all, `file_write` fails and changes nothing but the heap. -/
theorem file_write_full (hopen : OpenFile s idx p inode)
    (hout : RunsOut s inode count) (hfull : s.part.blockBitmap.free = 0) :
    ∃ heap, fileWrite idx buf count s = .done (-1) { s with heap := heap } := by
  have hlimit : inode.iSize.toNat + count.toNat ≤ 71680 := by
    rcases hout with ⟨-, -, h⟩ | ⟨h, -⟩
    · exact h
    · omega
  have hwrite : wp never (fileWrite idx buf count) s fun r last =>
      r = -1 ∧ ∃ heap, last = { s with heap := heap } := by
    refine wp_file_write_body hopen (by rw [UInt32.toNat_add]; omega)
      (fun _ heap => ⟨rfl, heap, rfl⟩) fun _ => ?_
    refine wp_mono (wp_write_body_full (puts_own_ide_write p) hopen.blocks hopen.memory
      (hopen.file.of_heap _) hout hfull) ?_
    rintro r last ⟨rfl, rfl⟩
    exact ⟨fun _ => ⟨rfl, _, rfl⟩, fun n h => nomatch h⟩
  obtain ⟨r, last, hdone, rfl, heap, rfl⟩ := wp_never_iff.1 hwrite
  exact ⟨heap, hdone⟩

/-- What `file_write` allocated before it fails is not given back. For every well-formed open file,
with memory granted and too few free blocks, the write fails and leaves everything as it was exactly
when there is no free block at all. -/
theorem file_write_fails_cleanly_iff {s : Kernel} {idx : Nat} {p : Ptr} {inode : INode}
    {buf : Bytes} {count : UInt32} (hopen : OpenFile s idx p inode) (hgranted : Granted s)
    (hout : RunsOut s inode count) :
    FailsCleanly s idx p inode buf count ↔ s.part.blockBitmap.free = 0 := by
  constructor
  · intro ⟨last, hdone, _, _, hbits, _⟩
    rcases hout with ⟨-, hfull, -⟩ | ⟨hlt, hfew⟩
    · exact hfull
    · have hresult := wp_any_iff.1 (wp_file_write hopen (puts_own_ide_write p)
        (fun _ => stores_at_inode_sync (.inr trivial)) hlt) (-1) last hdone
      rw [← hbits]
      generalize hr : (-1 : Int) = r at hresult
      cases hresult with
      | refused heap hrefused => exact absurd hgranted hrefused
      | wrote => omega
      | full _ _ hfull _ => exact hfull
  · intro hfull
    obtain ⟨heap, hdone⟩ := file_write_full hopen hout hfull
    refine ⟨_, hdone, hopen.memory, rfl, rfl, fun later buf' count' hlater hlt => ?_⟩
    exact wp_mono (wp_file_write hlater (puts_own_ide_write p)
      (fun _ => stores_at_inode_sync (.inr (by decide))) hlt) fun _ _ _ => trivial

/-- A kernel with an open file of 500 bytes where at most the first few blocks are free. -/
def scarceKernel (first : UInt8) : Kernel :=
  { fileKernel shortFile with part := bitsPartition first 0xff }

theorem scarce_open {first : UInt8}
    (hfirst : ∀ k < 8, (3 : UInt8).toBitVec.getLsbD k = true → first.toBitVec.getLsbD k = true) :
    OpenFile (scarceKernel first) 3 2 shortFile := by
  have hmore : MoreTaken (fileKernel shortFile) (scarceKernel first) := by
    refine ⟨rfl, rfl, fun i hi => ?_⟩
    change ((if i / 8 = 0 then 3 else 0 : UInt8)).toBitVec.getLsbD (i % 8) = true at hi
    change ((if i / 8 = 0 then first else 0xff : UInt8)).toBitVec.getLsbD (i % 8) = true
    by_cases hbyte : i / 8 = 0
    · rw [if_pos hbyte] at hi ⊢
      exact hfirst _ (Nat.mod_lt _ (by decide)) hi
    · rw [if_neg hbyte] at hi
      simp at hi
  exact ⟨hmore.blocks_ok (bits_partition_blocks_ok 0 (by decide)), rfl, rfl,
    .inr ((short_file_open.file.file_blocks (by decide)).congr hmore rfl rfl)⟩

theorem file_write_fails_cleanly_iff_full :
    FailsCleanly (scarceKernel 0xff) 3 2 shortFile UInt8.ofNat 1000 :=
  have hfree : (scarceKernel 0xff).part.blockBitmap.free = 0 :=
    (BitMap.free_eq_zero_iff _).2 (by decide +kernel)
  (file_write_fails_cleanly_iff (scarce_open (by decide)) ⟨rfl, rfl⟩
    (.inr ⟨by decide, by rw [EnoughBlocks, hfree]; decide⟩)).2 hfree

/-- One block is free and two are missing. The write fails, but the free block is now taken and
entered in the inode; when another block becomes free, the same write fails an `ASSERT`. -/
theorem write_keeps_block :
    OpenFile (scarceKernel 0xfb) 3 2 shortFile ∧ Granted (scarceKernel 0xfb) ∧
      RunsOut (scarceKernel 0xfb) shortFile 1000 ∧
      ∃ last inode', fileWrite 3 UInt8.ofNat 1000 (scarceKernel 0xfb) = .done (-1) last ∧
        last.inodes 2 = some inode' ∧ shortFile.sector 1 = 0 ∧ inode'.sector 1 = 677 ∧
        bitmapScanTest (scarceKernel 0xfb).part.blockBitmap 2 = false ∧
        bitmapScanTest last.part.blockBitmap 2 = true ∧
        fileWrite 3 UInt8.ofNat 1000 (last.setBlockBit 9 false) = .stop .assertFailed := by
  have hfree : (scarceKernel 0xfb).part.blockBitmap.free = 1 := by
    have hscan : bitmapScan (scarceKernel 0xfb).part.blockBitmap 1 = some 2 := by decide +kernel
    rw [← (scarceKernel 0xfb).part.blockBitmap.free_bitmap_set hscan]
    exact congrArg (· + 1) ((BitMap.free_eq_zero_iff _).2 (by decide +kernel))
  refine ⟨scarce_open (by decide), ⟨rfl, rfl⟩,
    .inr ⟨by decide, by rw [EnoughBlocks, hfree]; decide⟩, ?_⟩
  obtain ⟨r, last, hdone, rfl, ⟨inode', hinode, hsector⟩, hbit, hagain⟩ :
      ∃ r last, fileWrite 3 UInt8.ofNat 1000 (scarceKernel 0xfb) = .done r last ∧ r = -1 ∧
        (∃ inode' ∈ last.inodes 2, inode'.sector 1 = 677) ∧
        bitmapScanTest last.part.blockBitmap 2 = true ∧
        wp (· = .assertFailed) (fileWrite 3 UInt8.ofNat 1000) (last.setBlockBit 9 false)
          fun _ _ => False :=
    wp_never_iff.1 (by decide +kernel)
  refine ⟨last, inode', hdone, hinode, rfl, hsector, by decide +kernel, hbit, ?_⟩
  cases hstop : fileWrite 3 UInt8.ofNat 1000 (last.setBlockBit 9 false) with
  | done r' last' => exact ((wp_of_done hstop).1 hagain).elim
  | stop reason => rw [(wp_of_stop hstop).1 hagain]

end LosKernel
