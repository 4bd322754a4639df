import LosKernel.Fs.Areas
import LosKernel.Fs.File
import LosKernel.Lib.Pages

/-!
# The blocks of a file

Where the blocks of a file are recorded, what its content is, and how `file_write` allocates
blocks. `FileBlocks` says that a file has a number of blocks, recorded in the inode and then in
the indirect table. `Grew` says what the allocation loops do, and `Collected` what is left for the
copy loop.
-/

namespace LosKernel

open Prog
open Function (update_of_ne update_self)

variable {lba : UInt32} {part : Partition} {s mid last : Kernel} {inode inode' inode'' : INode}
  {n k start m m' i has will : Nat} {p : Ptr} {blocks blocks' blocks'' allBlocks : Nat → UInt32}
  {ok : Stop → Prop} {put : UInt32 → Bytes → Call Unit}

/-! ## Partitions -/

/-- The block bitmap of a mounted partition can be allocated from: the block of the root directory
is taken, and a block that is free can be addressed. -/
structure BlocksOk (part : Partition) : Prop where
  areas : Areas part
  root : bitmapScanTest part.blockBitmap 0 = true
  inRange : ∀ i < 8 * part.blockBitmap.btmpBytesLen, bitmapScanTest part.blockBitmap i = false →
    (blockAddr part.sb i).toNat ≤ maxLba

/-- A block of the data area whose bit is set. -/
def Taken (part : Partition) (lba : UInt32) : Prop :=
  ∃ i < 8 * part.blockBitmap.btmpBytesLen, lba = blockAddr part.sb i ∧
    bitmapScanTest part.blockBitmap i = true ∧ lba.toNat ≤ maxLba

/-- A block of the data area that was free and is now taken. -/
def Fresh (s last : Kernel) (lba : UInt32) : Prop :=
  ∃ i < 8 * s.part.blockBitmap.btmpBytesLen, lba = blockAddr s.part.sb i ∧
    bitmapScanTest s.part.blockBitmap i = false ∧ bitmapScanTest last.part.blockBitmap i = true

theorem Taken.data (h : Taken part lba) (ha : Areas part) :
    part.sb.dataStartLba.toNat ≤ lba.toNat := by
  obtain ⟨i, hi, rfl, -⟩ := h
  rw [block_addr_toNat ha hi]
  omega

theorem Taken.ne_zero (h : Taken part lba) (ha : Areas part) : lba ≠ 0 := by
  obtain ⟨i, hi, rfl, -⟩ := h
  exact block_addr_ne_zero ha hi

theorem Taken.in_range (h : Taken part lba) : lba.toNat ≤ maxLba := by
  obtain ⟨i, -, -, -, hle⟩ := h
  exact hle

theorem block_addr_inj (ha : Areas part) {j : Nat} (hi : i < 8 * part.blockBitmap.btmpBytesLen)
    (hj : j < 8 * part.blockBitmap.btmpBytesLen) (h : blockAddr part.sb i = blockAddr part.sb j) :
    i = j := by
  have h1 := block_addr_toNat ha hi
  have h2 := block_addr_toNat ha hj
  rw [h] at h1
  omega

/-- A block that was free is none of those that were taken. -/
theorem Fresh.ne_taken {lba' : UInt32} (h : Fresh s last lba) (h' : Taken s.part lba')
    (ha : Areas s.part) : lba ≠ lba' := by
  obtain ⟨i, hi, rfl, hfree, -⟩ := h
  obtain ⟨j, hj, rfl, hset, -⟩ := h'
  intro heq
  rw [block_addr_inj ha hi hj heq, hset] at hfree
  exact Bool.noConfusion hfree

/-! ## Files -/

/-- The address of block `k` of a file. -/
def blockOf (disk : Bytes) (inode : INode) (k : Nat) : UInt32 :=
  if k < 12 then inode.sector k else tableAt disk (inode.sector 12).toNat (k - 12)

/-- The file has `n` blocks. The blocks it does not have are 0 where they would be recorded. -/
structure FileBlocks (s : Kernel) (inode : INode) (n : Nat) : Prop where
  pos : 0 < n
  le : n ≤ 140
  taken : ∀ k < n, Taken s.part (blockOf s.disk inode k)
  inj : ∀ j < n, ∀ k < n, blockOf s.disk inode j = blockOf s.disk inode k → j = k
  direct : ∀ k, n ≤ k → k < 12 → inode.sector k = 0
  noTable : n ≤ 12 → inode.sector 12 = 0
  table : 12 < n → Taken s.part (inode.sector 12)
  tableNe : 12 < n → ∀ k < n, blockOf s.disk inode k ≠ inode.sector 12
  unused : 12 < n → ∀ k, n ≤ k → k < 140 → blockOf s.disk inode k = 0

/-- A file is well-formed: it has no blocks and no content, or its size tells how many blocks it
has. -/
def FileOk (s : Kernel) (inode : INode) : Prop :=
  (inode.iSize = 0 ∧ ∀ k < 13, inode.sector k = 0) ∨
    FileBlocks s inode (inode.iSize.toNat / 512 + 1)

/-- The blocks of a file as pages. -/
def filePage (disk : Bytes) (inode : INode) (k : Nat) : Bytes :=
  sectorAt disk (blockOf disk inode k).toNat

/-- The content of a file. -/
def content (s : Kernel) (inode : INode) : List UInt8 :=
  Pages.slice 512 (filePage s.disk inode) 0 inode.iSize.toNat

/-- The block belongs to the file: it is one of its data blocks or its indirect table. -/
def OwnsBlock (s : Kernel) (inode : INode) (lba : UInt32) : Prop :=
  lba ≠ 0 ∧ ((∃ k < 12, inode.sector k = lba) ∨ inode.sector 12 ≠ 0 ∧
    (inode.sector 12 = lba ∨ ∃ j < 128, tableAt s.disk (inode.sector 12).toNat j = lba))

instance (s : Kernel) (inode : INode) (lba : UInt32) : Decidable (OwnsBlock s inode lba) :=
  inferInstanceAs (Decidable (_ ∧ _))

/-- The blocks that a file with `n` data blocks takes, its indirect table included. -/
def blocksFor (n : Nat) : Nat := if n ≤ 12 then n else n + 1

theorem blockOf_lt (disk : Bytes) (inode : INode) (h : k < 12) :
    blockOf disk inode k = inode.sector k := if_pos h

theorem blockOf_ge (disk : Bytes) (inode : INode) (h : 12 ≤ k) :
    blockOf disk inode k = tableAt disk (inode.sector 12).toNat (k - 12) := if_neg (by omega)

theorem FileBlocks.owns (h : FileBlocks s inode n) (ha : Areas s.part) (hk : k < n) :
    OwnsBlock s inode (blockOf s.disk inode k) := by
  refine ⟨(h.taken k hk).ne_zero ha, ?_⟩
  have hle := h.le
  by_cases hlt : k < 12
  · exact .inl ⟨k, hlt, (blockOf_lt _ _ hlt).symm⟩
  · refine .inr ⟨(h.table (by omega)).ne_zero ha, .inr ⟨k - 12, by omega, ?_⟩⟩
    rw [blockOf_ge _ _ (by omega)]

theorem FileBlocks.owns_table (h : FileBlocks s inode n) (ha : Areas s.part) (hn : 12 < n) :
    OwnsBlock s inode (inode.sector 12) :=
  ⟨(h.table hn).ne_zero ha, .inr ⟨(h.table hn).ne_zero ha, .inl rfl⟩⟩

/-- What a file with blocks owns are its data blocks and its table. -/
theorem FileBlocks.owns_cases (h : FileBlocks s inode n) (hown : OwnsBlock s inode lba) :
    (∃ k < n, blockOf s.disk inode k = lba) ∨ 12 < n ∧ lba = inode.sector 12 := by
  obtain ⟨hne, ⟨k, hk, rfl⟩ | ⟨htable, hcase⟩⟩ := hown
  · by_cases hlt : k < n
    · exact .inl ⟨k, hlt, blockOf_lt _ _ hk⟩
    · exact absurd (h.direct k (by omega) hk) hne
  · have hn : 12 < n := by
      by_contra hle
      exact htable (h.noTable (by omega))
    obtain rfl | ⟨j, hj, rfl⟩ := hcase
    · exact .inr ⟨hn, rfl⟩
    · have hblock : blockOf s.disk inode (12 + j) = tableAt s.disk (inode.sector 12).toNat j := by
        rw [blockOf_ge _ _ (by omega), Nat.add_sub_cancel_left]
      by_cases hlt : 12 + j < n
      · exact .inl ⟨12 + j, hlt, hblock⟩
      · exact absurd (hblock ▸ h.unused hn (12 + j) (by omega) (by omega)) hne

/-! ## Allocating blocks -/

/-- The byte is in the area of the block bitmap. -/
def InBlockBits (sb : SuperBlock) (i : Nat) : Prop :=
  512 * sb.blockBitmapLba.toNat ≤ i ∧
    i < 512 * (sb.blockBitmapLba.toNat + sb.blockBitmapSects.toNat)

/-- The disk, the block bitmap in memory and the inode at `p` may have changed, and nothing else. -/
def Rewritten (s : Kernel) (p : Ptr) (inode' : INode) (last : Kernel) : Prop :=
  last = { s with
    disk := last.disk
    part := { s.part with blockBitmap := last.part.blockBitmap }
    inodes := Function.update s.inodes p (some inode') }

/-- No block was released. -/
structure MoreTaken (s last : Kernel) : Prop where
  part : last.part = { s.part with blockBitmap := last.part.blockBitmap }
  len : last.part.blockBitmap.btmpBytesLen = s.part.blockBitmap.btmpBytesLen
  bits : ∀ i, bitmapScanTest s.part.blockBitmap i = true →
    bitmapScanTest last.part.blockBitmap i = true

namespace MoreTaken

theorem of_part_eq (h : last.part = s.part) : MoreTaken s last :=
  ⟨by rw [h], by rw [h], fun i hi => by rwa [h]⟩

theorem trans (h : MoreTaken s mid) (h' : MoreTaken mid last) : MoreTaken s last := by
  refine ⟨?_, h'.len.trans h.len, fun i hi => h'.bits i (h.bits i hi)⟩
  have hlast := h'.part
  rw [h.part] at hlast
  exact hlast

theorem sb (h : MoreTaken s last) : last.part.sb = s.part.sb := by rw [h.part]

theorem free (h : MoreTaken s last) (hfree : bitmapScanTest last.part.blockBitmap i = false) :
    bitmapScanTest s.part.blockBitmap i = false :=
  Bool.eq_false_iff.2 fun hset => Bool.eq_false_iff.1 hfree (h.bits i hset)

theorem blocks_ok (h : MoreTaken s last) (hok : BlocksOk s.part) : BlocksOk last.part := by
  have hfree : ∀ i, bitmapScanTest last.part.blockBitmap i = false →
      bitmapScanTest s.part.blockBitmap i = false := fun _ => h.free
  have hlen := h.len
  have hroot := h.bits 0 hok.root
  rw [h.part] at hlen hroot hfree ⊢
  have ha := hok.areas
  refine ⟨⟨⟨ha.table.inPart, ha.table.noWrap, ha.table.inRange⟩, ha.entrySize, ha.bootSector,
    hlen.trans ha.blockLen, ha.blockArea, ha.inodeLen, ha.inodeArea, ha.tableArea, ?_⟩,
    hroot, fun i hi hclear => hok.inRange i (hlen ▸ hi) (hfree i hclear)⟩
  rw [hlen]
  exact ha.dataArea

theorem taken (h : MoreTaken s last) (htaken : Taken s.part lba) : Taken last.part lba := by
  obtain ⟨i, hi, haddr, hset, hle⟩ := htaken
  exact ⟨i, h.len.symm ▸ hi, h.sb.symm ▸ haddr, h.bits i hset, hle⟩

theorem fresh (h : MoreTaken s last) (hok : BlocksOk s.part) (hfresh : Fresh s last lba) :
    Taken last.part lba := by
  obtain ⟨i, hi, haddr, hfree, hset⟩ := hfresh
  exact ⟨i, h.len.symm ▸ hi, h.sb.symm ▸ haddr, hset, haddr ▸ hok.inRange i hi hfree⟩

/-- A block that was taken in a first step is still taken after a second. -/
theorem fresh_left (h : MoreTaken mid last) (hfresh : Fresh s mid lba) : Fresh s last lba := by
  obtain ⟨i, hi, haddr, hfree, hset⟩ := hfresh
  exact ⟨i, hi, haddr, hfree, h.bits i hset⟩

/-- A block that was taken in a second step was free before the first. -/
theorem fresh_right (h : MoreTaken s mid) (hfresh : Fresh mid last lba) : Fresh s last lba := by
  obtain ⟨i, hi, haddr, hfree, hset⟩ := hfresh
  exact ⟨i, h.len ▸ hi, h.sb ▸ haddr, h.free hfree, hset⟩

end MoreTaken

/-- `m` blocks were allocated for the file at `p`, from block `start` on. Their addresses are in
`blocks'`; those of direct blocks are also in the inode. -/
structure Grew (s : Kernel) (p : Ptr) (inode : INode) (start m : Nat) (blocks : Nat → UInt32)
    (inode' : INode) (blocks' : Nat → UInt32) (last : Kernel) : Prop where
  rest : Rewritten s p inode' last
  same : inode' = { inode with iSectors := inode'.iSectors }
  kept : ∀ k, ¬(start ≤ k ∧ k < start + m ∧ k < 12) → inode'.sector k = inode.sector k
  entered : ∀ k, start ≤ k → k < start + m → k < 12 → inode'.sector k = blocks' k
  others : ∀ k, ¬(start ≤ k ∧ k < start + m) → blocks' k = blocks k
  fresh : ∀ k, start ≤ k → k < start + m → Fresh s last (blocks' k)
  inj : ∀ j k, start ≤ j → j < start + m → start ≤ k → k < start + m → blocks' j = blocks' k →
    j = k
  more : MoreTaken s last
  disk : ∀ i, ¬InBlockBits s.part.sb i → last.disk i = s.disk i
  free : last.part.blockBitmap.free + m = s.part.blockBitmap.free

namespace Grew

theorem inode_eq (h : Grew s p inode start m blocks inode' blocks' last) :
    last.inodes p = some inode' := by
  rw [h.rest]
  exact update_self ..

theorem refl (hinode : s.inodes p = some inode) (start : Nat) (blocks : Nat → UInt32) :
    Grew s p inode start 0 blocks inode blocks s where
  rest := by
    rw [Rewritten, Function.update_eq_self_iff.2 hinode.symm]
  same := rfl
  kept := fun _ _ => rfl
  entered := by omega
  others := fun _ _ => rfl
  fresh := by omega
  inj := by omega
  more := .of_part_eq rfl
  disk := fun _ _ => rfl
  free := rfl

theorem trans (h : Grew s p inode start m blocks inode' blocks' mid)
    (h' : Grew mid p inode' (start + m) m' blocks' inode'' blocks'' last) (ha : Areas s.part) :
    Grew s p inode start (m + m') blocks inode'' blocks'' last := by
  have hfirst : ∀ k, start ≤ k → k < start + m → Fresh s mid (blocks'' k) := by
    intro k hk hlt
    rw [h'.others k (by omega)]
    exact h.fresh k hk hlt
  -- a block of the first part is taken when one of the second part is still free
  have hne : ∀ j k, start ≤ j → j < start + m → start + m ≤ k → k < start + m + m' →
      blocks'' j ≠ blocks'' k := by
    intro j k hj hjm hk hkm heq
    obtain ⟨a, halt, haddr, -, hset⟩ := hfirst j hj hjm
    obtain ⟨b, hblt, hbddr, hfree, -⟩ := h'.fresh k hk hkm
    rw [h.more.len] at hblt
    rw [haddr, hbddr, h.more.sb] at heq
    rw [block_addr_inj ha halt hblt heq, hfree] at hset
    exact Bool.noConfusion hset
  exact
  { rest := by
      have hsecond := h'.rest
      rw [h.rest] at hsecond
      simpa only [Rewritten, Function.update_idem] using hsecond
    same := by
      rw [h'.same, h.same]
    kept := by
      intro k hk
      rw [h'.kept k (by omega), h.kept k (by omega)]
    entered := by
      intro k hk hlt hdirect
      by_cases hlow : k < start + m
      · rw [h'.kept k (by omega), h.entered k hk hlow hdirect, h'.others k (by omega)]
      · exact h'.entered k (by omega) (by omega) hdirect
    others := by
      intro k hk
      rw [h'.others k (by omega), h.others k (by omega)]
    fresh := by
      intro k hk hlt
      by_cases hlow : k < start + m
      · exact h'.more.fresh_left (hfirst k hk hlow)
      · exact h.more.fresh_right (h'.fresh k (by omega) (by omega))
    inj := by
      intro j k hj hjlt hk hklt heq
      by_cases hjf : j < start + m
      · by_cases hkf : k < start + m
        · rw [h'.others j (by omega), h'.others k (by omega)] at heq
          exact h.inj j k hj hjf hk hkf heq
        · exact absurd heq (hne j k hj hjf (by omega) (by omega))
      · by_cases hkf : k < start + m
        · exact absurd heq.symm (hne k j hk hkf (by omega) (by omega))
        · exact h'.inj j k (by omega) (by omega) (by omega) (by omega) heq
    more := h.more.trans h'.more
    disk := fun i hi => (h'.disk i (by rwa [h.more.sb])).trans (h.disk i hi)
    free := by
      have h1 := h.free
      have h2 := h'.free
      omega }

end Grew

/-- The inode after the address of block `k` was entered; an indirect block is not. -/
def INode.enter (inode : INode) (k : Nat) (lba : UInt32) : INode :=
  if k < 12 then inode.setSector k lba else inode

theorem INode.sector_enter (inode : INode) (k j : Nat) (lba : UInt32) :
    (inode.enter k lba).sector j = if j = k ∧ k < 12 then lba else inode.sector j := by
  unfold INode.enter
  by_cases hk : k < 12
  · simp [hk, INode.sector_set_sector inode j lba (by omega : k < 13)]
  · simp [hk]

theorem Grew.one (ha : Areas s.part) (hscan : bitmapScan s.part.blockBitmap 1 = some i)
    (blocks : Nat → UInt32) :
    Grew s p inode start 1 blocks (inode.enter start (blockAddr s.part.sb i))
      (Function.update blocks start (blockAddr s.part.sb i))
      ((s.takeBlock i).setInode p (inode.enter start (blockAddr s.part.sb i))) := by
  obtain ⟨hi, hclear, -⟩ := bitmap_scan_one_eq_some _ hscan
  exact
  { rest := rfl
    same := by
      unfold INode.enter
      split <;> rfl
    kept := by
      intro k hk
      rw [INode.sector_enter, if_neg (by omega)]
    entered := by
      intro k hk hlt hdirect
      obtain rfl : k = start := by omega
      rw [INode.sector_enter, if_pos ⟨rfl, hdirect⟩, update_self]
    others := by
      intro k hk
      exact update_of_ne (by omega) ..
    fresh := by
      intro k hk hlt
      obtain rfl : k = start := by omega
      refine ⟨i, hi, update_self .., hclear, ?_⟩
      simp [scan_test_bitmap_set]
    inj := by omega
    more := ⟨rfl, rfl, fun j hj => by simp [scan_test_bitmap_set, hj]⟩
    disk := by
      intro j hj
      have hlen := ha.blockLen
      unfold InBlockBits at hj
      exact Bytes.blit_outside (by simp only [Kernel.setBlockBit_sb]; omega)
    free := s.part.blockBitmap.free_bitmap_set hscan }

/-- The rest of an iteration of an allocation loop, once the bit of the block is set. -/
theorem wp_enter_block {α : Type} {rest : Call α} {Q : α → Kernel → Prop} (ha : Areas s.part)
    (hinode : s.inodes p = some inode) (hzero : start < 12 → inode.sector start = 0)
    (hi : i < 8 * s.part.blockBitmap.btmpBytesLen)
    (hQ : wp ok rest ((s.takeBlock i).setInode p (inode.enter start (blockAddr s.part.sb i))) Q) :
    wp ok (do
      let inode ← derefInode p
      when (start < 12) do
        assert (inode.sector start = 0)
        storeSector p start (blockAddr s.part.sb i)
      let t ← state
      bitmapSync (blockAddr s.part.sb i - t.part.sb.dataStartLba) .block
      rest) (s.setBlockBit i true) Q := by
  simp only [wp_bind, wp_deref_inode, Kernel.setBlockBit_inodes, hinode, of_some, wp_when, wp_state]
  unfold INode.enter at hQ
  constructor
  · intro hlt
    rw [if_pos hlt] at hQ
    simp only [wp_assert, storeSector, wp_bind, wp_deref_inode, Kernel.setBlockBit_inodes,
      hinode, of_some, of_true, wp_set_inode, hzero hlt, decide_true,
      Kernel.setInode_part, Kernel.setBlockBit_sb, block_addr_sub]
    exact wp_sync_block ((ha.setBlockBit i true)) hi hQ
  · intro hge
    rw [if_neg hge, Kernel.setInode, Function.update_eq_self_iff.2 hinode.symm] at hQ
    rw [Kernel.setBlockBit_sb, block_addr_sub]
    exact wp_sync_block (ha.setBlockBit i true) hi hQ

/-- The allocation loops allocate as many blocks as they are asked for, or they fail with no block
left. With no block at all they fail at once. -/
theorem wp_alloc_blocks {count : Nat} (hok : BlocksOk s.part) (hinode : s.inodes p = some inode)
    (hzero : ∀ k, start ≤ k → k < 12 → inode.sector k = 0) :
    wp ok (allocBlocks p count start blocks) s fun r last => ∃ m ≤ count, ∃ inode' blocks',
      Grew s p inode start m blocks inode' blocks' last ∧
        (r = some blocks' ∧ m = count ∨ r = none ∧ m < count ∧ last.part.blockBitmap.free = 0 ∧
            (s.part.blockBitmap.free = 0 → last = s)) := by
  induction count generalizing s inode start blocks with
  | zero => exact ⟨0, Nat.le_refl 0, inode, blocks, .refl hinode start blocks, .inl ⟨rfl, rfl⟩⟩
  | succ count ih =>
    simp only [allocBlocks, wp_bind]
    rw [wp_alloc_block]
    refine ⟨fun hfull => ?_, fun i hscan => ?_⟩
    · refine ⟨0, Nat.zero_le _, inode, blocks, .refl hinode start blocks,
        .inr ⟨rfl, by omega, ?_, fun _ => rfl⟩⟩
      exact s.part.blockBitmap.free_eq_zero_iff.2 hfull
    have hone : Grew s p inode start 1 blocks _ _ _ := Grew.one hok.areas hscan blocks
    obtain ⟨hi, -, -⟩ := bitmap_scan_one_eq_some _ hscan
    refine wp_enter_block hok.areas hinode (hzero start le_rfl) hi
      (wp_mono (ih (hone.more.blocks_ok hok) hone.inode_eq ?_) ?_)
    · intro k hk hlt
      rw [INode.sector_enter, if_neg (by omega)]
      exact hzero k (by omega) hlt
    · rintro r last ⟨m, hm, inode', blocks', hgrew, hcase⟩
      refine ⟨1 + m, by omega, inode', blocks', hone.trans hgrew hok.areas, ?_⟩
      rcases hcase with ⟨hr, rfl⟩ | ⟨hr, hlt, hfull, -⟩
      · exact .inl ⟨hr, by omega⟩
      · refine .inr ⟨hr, by omega, hfull, fun hnone => ?_⟩
        have := hone.free
        omega

/-! ## The blocks after an allocation -/

/-- What `file_write` leaves for its copy loop: a file with `has` blocks now has `will` blocks, and
`allBlocks` holds the addresses from the last block it had on. -/
structure Collected (s : Kernel) (p : Ptr) (inode : INode) (has will : Nat)
    (allBlocks : Nat → UInt32) (inode' : INode) (last : Kernel) : Prop where
  rest : Rewritten s p inode' last
  same : inode' = { inode with iSectors := inode'.iSectors }
  more : MoreTaken s last
  kept : ∀ k < has, blockOf last.disk inode' k = blockOf s.disk inode k
  fresh : ∀ k, has ≤ k → k < will → Fresh s last (blockOf last.disk inode' k)
  inj : ∀ j k, has ≤ j → j < will → has ≤ k → k < will →
    blockOf last.disk inode' j = blockOf last.disk inode' k → j = k
  direct : ∀ k, will ≤ k → k < 12 → inode'.sector k = 0
  noTable : will ≤ 12 → inode'.sector 12 = 0
  tableKept : 12 < has → inode'.sector 12 = inode.sector 12
  tableFresh : has ≤ 12 → 12 < will → Fresh s last (inode'.sector 12) ∧
    ∀ k, has ≤ k → k < will → blockOf last.disk inode' k ≠ inode'.sector 12
  unused : 12 < will → ∀ k, will ≤ k → k < 140 → blockOf last.disk inode' k = 0
  all : ∀ k, has ≤ k + 1 → k < will → allBlocks k = blockOf last.disk inode' k
  disk : ∀ i, ¬InBlockBits s.part.sb i →
    ¬(12 < will ∧ 512 * (inode'.sector 12).toNat ≤ i ∧ i < 512 * (inode'.sector 12).toNat + 512) →
    last.disk i = s.disk i
  free : last.part.blockBitmap.free + blocksFor will = s.part.blockBitmap.free + blocksFor has

namespace Collected

theorem file_blocks (h : Collected s p inode has will allBlocks inode' last)
    (hok : BlocksOk s.part) (hb : FileBlocks s inode has) (hle : has ≤ will) (hmax : will ≤ 140) :
    FileBlocks last inode' will := by
  have hpos := hb.pos
  have htaken : ∀ k < will, Taken last.part (blockOf last.disk inode' k) := by
    intro k hk
    by_cases hold : k < has
    · rw [h.kept k hold]
      exact h.more.taken (hb.taken k hold)
    · exact h.more.fresh hok (h.fresh k (by omega) hk)
  -- a new block is none of those the file had
  have hne : ∀ j k, j < has → has ≤ k → k < will →
      blockOf last.disk inode' j ≠ blockOf last.disk inode' k := by
    intro j k hj hk hlt heq
    rw [h.kept j hj] at heq
    exact (h.fresh k hk hlt).ne_taken (hb.taken j hj) hok.areas heq.symm
  refine ⟨by omega, hmax, htaken, ?_, h.direct, h.noTable, ?_, ?_, h.unused⟩
  · intro j hj k hk heq
    by_cases hjold : j < has
    · by_cases hkold : k < has
      · rw [h.kept j hjold, h.kept k hkold] at heq
        exact hb.inj j hjold k hkold heq
      · exact absurd heq (hne j k hjold (by omega) hk)
    · by_cases hkold : k < has
      · exact absurd heq.symm (hne k j hkold (by omega) hj)
      · exact h.inj j k (by omega) hj (by omega) hk heq
  · intro hlt
    by_cases hold : 12 < has
    · rw [h.tableKept hold]
      exact h.more.taken (hb.table hold)
    · exact h.more.fresh hok (h.tableFresh (by omega) hlt).1
  · intro hlt k hk
    by_cases htable : 12 < has
    · rw [h.tableKept htable]
      by_cases hold : k < has
      · rw [h.kept k hold]
        exact hb.tableNe htable k hold
      · exact (h.fresh k (by omega) hk).ne_taken (hb.table htable) hok.areas
    · obtain ⟨hfresh, hnew⟩ := h.tableFresh (by omega) hlt
      by_cases hold : k < has
      · rw [h.kept k hold]
        exact (hfresh.ne_taken (hb.taken k hold) hok.areas).symm
      · exact hnew k (by omega) hk

end Collected

theorem Collected.refl (hinode : s.inodes p = some inode) (hb : FileBlocks s inode has)
    (hall : allBlocks (has - 1) = blockOf s.disk inode (has - 1)) :
    Collected s p inode has has allBlocks inode s where
  rest := by
    rw [Rewritten, Function.update_eq_self_iff.2 hinode.symm]
  same := rfl
  more := .of_part_eq rfl
  kept := fun _ _ => rfl
  fresh := by omega
  inj := by omega
  direct := hb.direct
  noTable := hb.noTable
  tableKept := fun _ => rfl
  tableFresh := by omega
  unused := hb.unused
  all := by
    intro k hk hlt
    obtain rfl : k = has - 1 := by omega
    exact hall
  disk := fun _ _ _ => rfl
  free := rfl

/-- The first situation: the direct blocks are enough. -/
theorem Collected.of_direct (hb : FileBlocks s inode has) (hle : has ≤ will) (hwill : will ≤ 12)
    (h : Grew s p inode has (will - has)
      (Function.update (fun _ => 0) (has - 1) (inode.sector (has - 1))) inode' blocks' last) :
    Collected s p inode has will blocks' inode' last := by
  have hold : ∀ k < has, inode'.sector k = inode.sector k := fun k hk => h.kept k (by omega)
  have hnew : ∀ k, has ≤ k → k < will → inode'.sector k = blocks' k :=
    fun k hk hlt => h.entered k hk (by omega) (by omega)
  have hblock : ∀ k < 12, blockOf last.disk inode' k = inode'.sector k :=
    fun k hk => blockOf_lt _ _ hk
  exact
  { rest := h.rest
    same := h.same
    more := h.more
    kept := by
      intro k hk
      rw [hblock k (by omega), blockOf_lt _ _ (by omega), hold k hk]
    fresh := by
      intro k hk hlt
      rw [hblock k (by omega), hnew k hk hlt]
      exact h.fresh k hk (by omega)
    inj := by
      intro j k hj hjlt hk hklt heq
      rw [hblock j (by omega), hblock k (by omega), hnew j hj hjlt, hnew k hk hklt] at heq
      exact h.inj j k hj (by omega) hk (by omega) heq
    direct := by
      intro k hk hlt
      rw [h.kept k (by omega)]
      exact hb.direct k (by omega) hlt
    noTable := by
      intro _
      rw [h.kept 12 (by omega)]
      exact hb.noTable (by omega)
    tableKept := by omega
    tableFresh := by omega
    unused := by omega
    all := by
      intro k hk hlt
      rw [hblock k (by omega)]
      by_cases hlast : k < has
      · obtain rfl : k = has - 1 := by omega
        rw [hold _ hlast, h.others _ (by omega), update_self]
      · rw [hnew k (by omega) hlt]
    disk := fun i hi _ => h.disk i hi
    free := by
      have := h.free
      simp only [blocksFor, hwill, show has ≤ 12 by omega, if_true]
      omega }

/-- The addresses of the blocks after the indirect table was written. -/
theorem blockOf_write_table (s : Kernel) (inode : INode) (table : Nat → UInt32) (hk : k < 140) :
    blockOf (s.write (inode.sector 12) (Bytes.words fun j => table (12 + j))).disk inode k =
      if k < 12 then inode.sector k else table k := by
  by_cases hlt : k < 12
  · rw [if_pos hlt, blockOf_lt _ _ hlt]
  · rw [if_neg hlt, blockOf_ge _ _ (by omega), tableAt, Kernel.write_disk,
      sectorAt_blit, if_pos rfl,
      word_clip_words _ (by omega), show 12 + (k - 12) = k by omega]

/-- The third situation: the file has an indirect table already. -/
theorem Collected.of_table (hb : FileBlocks s inode has) (hle : has ≤ will) (hmax : will ≤ 140)
    (htable : 12 < has)
    (h : Grew s p inode has (will - has) (withTable (tableAt s.disk (inode.sector 12).toNat)) inode'
      blocks' last) :
    Collected s p inode has will blocks' inode'
      (last.write (inode'.sector 12) (Bytes.words fun j => blocks' (12 + j))) := by
  have hsec : ∀ k, inode'.sector k = inode.sector k := fun k => h.kept k (by omega)
  have hblock : ∀ k < 140, blockOf (last.write (inode'.sector 12)
      (Bytes.words fun j => blocks' (12 + j))).disk inode' k =
      if k < 12 then inode'.sector k else blocks' k :=
    fun k hk => blockOf_write_table last inode' blocks' hk
  have hread : ∀ k, 12 ≤ k → k < 140 →
      withTable (tableAt s.disk (inode.sector 12).toNat) k = blockOf s.disk inode k := by
    intro k hk hlt
    rw [withTable, if_pos ⟨hk, hlt⟩, blockOf_ge _ _ hk]
  exact
  { rest := by
      have hrest := h.rest
      rw [hrest]
      rfl
    same := h.same
    more := h.more.trans (.of_part_eq rfl)
    kept := by
      intro k hk
      rw [hblock k (by omega)]
      split
      · rename_i hlt
        rw [blockOf_lt _ _ hlt, hsec k]
      · rw [h.others k (by omega), hread k (by omega) (by omega)]
    fresh := by
      intro k hk hlt
      rw [hblock k (by omega), if_neg (by omega)]
      exact h.fresh k hk (by omega)
    inj := by
      intro j k hj hjlt hk hklt heq
      rw [hblock j (by omega), hblock k (by omega), if_neg (by omega), if_neg (by omega)] at heq
      exact h.inj j k hj (by omega) hk (by omega) heq
    direct := by omega
    noTable := by omega
    tableKept := fun _ => hsec 12
    tableFresh := by omega
    unused := by
      intro _ k hk hlt
      rw [hblock k hlt, if_neg (by omega), h.others k (by omega), hread k (by omega) hlt]
      exact hb.unused htable k (by omega) hlt
    all := by
      intro k hk hlt
      rw [hblock k (by omega), if_neg (by omega)]
    disk := by
      intro i hi hne
      rw [← h.disk i hi]
      exact Bytes.blit_outside (by omega)
    free := by
      have := h.free
      simp only [blocksFor, show ¬will ≤ 12 by omega, show ¬has ≤ 12 by omega, if_false]
      simp only [Kernel.write_part]
      omega }

/-- The second situation: a block becomes the indirect table, and the blocks that are allocated then
are partly entered in it. -/
theorem Collected.of_new_table {t : Nat} (ha : Areas s.part) (hhas : has ≤ 12)
    (hwill : 12 < will) (hmax : will ≤ 140) (hscan : bitmapScan s.part.blockBitmap 1 = some t)
    (h : Grew ((s.setBlockBit t true).setInode p (inode.setSector 12 (blockAddr s.part.sb t))) p
      (inode.setSector 12 (blockAddr s.part.sb t)) has (will - has)
      (Function.update (fun _ => 0) (has - 1) (inode.sector (has - 1))) inode' blocks' last) :
    Collected s p inode has will blocks' inode'
      (last.write (inode'.sector 12) (Bytes.words fun j => blocks' (12 + j))) := by
  obtain ⟨ht, hclear, -⟩ := bitmap_scan_one_eq_some _ hscan
  have hsec : ∀ k, ¬(has ≤ k ∧ k < 12) →
      inode'.sector k = if k = 12 then blockAddr s.part.sb t else inode.sector k := by
    intro k hk
    rw [h.kept k (by omega), INode.sector_set_sector _ _ _ (by omega)]
  have hblock : ∀ k < 140, blockOf (last.write (inode'.sector 12)
      (Bytes.words fun j => blocks' (12 + j))).disk inode' k =
      if k < 12 then inode'.sector k else blocks' k :=
    fun k hk => blockOf_write_table last inode' blocks' hk
  have hnew : ∀ k, has ≤ k → k < will → blockOf (last.write (inode'.sector 12)
      (Bytes.words fun j => blocks' (12 + j))).disk inode' k = blocks' k := by
    intro k hk hlt
    rw [hblock k (by omega)]
    split
    · rename_i hdirect
      exact h.entered k hk (by omega) hdirect
    · rfl
  -- the bit of the table is set before the other blocks are allocated
  have hmid : ∀ i, bitmapScanTest (bitmapSet s.part.blockBitmap t true) i = false →
      i ≠ t ∧ bitmapScanTest s.part.blockBitmap i = false := by
    intro i hi
    rw [scan_test_bitmap_set] at hi
    by_cases heq : i = t
    · simp [heq] at hi
    · exact ⟨heq, by simpa [heq] using hi⟩
  have hset : bitmapScanTest last.part.blockBitmap t = true :=
    h.more.bits t (by simp [scan_test_bitmap_set])
  exact
  { rest := by
      have hrest := h.rest
      rw [Rewritten] at hrest ⊢
      rw [hrest]
      simp only [Kernel.write, Kernel.setInode, Kernel.setBlockBit, Function.update_idem]
    same := by rw [h.same, INode.setSector]
    more := by
      have htaken : MoreTaken s ((s.setBlockBit t true).setInode p
          (inode.setSector 12 (blockAddr s.part.sb t))) :=
        ⟨rfl, rfl, fun i hi => by simp [scan_test_bitmap_set, hi]⟩
      exact htaken.trans (h.more.trans (.of_part_eq rfl))
    kept := by
      intro k hk
      rw [hblock k (by omega), if_pos (by omega), hsec k (by omega), if_neg (by omega),
        blockOf_lt _ _ (by omega)]
    fresh := by
      intro k hk hlt
      rw [hnew k hk hlt]
      obtain ⟨i, hi, haddr, hfree, hlast⟩ := h.fresh k hk (by omega)
      exact ⟨i, hi, haddr, (hmid i hfree).2, hlast⟩
    inj := by
      intro j k hj hjlt hk hklt heq
      rw [hnew j hj hjlt, hnew k hk hklt] at heq
      exact h.inj j k hj (by omega) hk (by omega) heq
    direct := by omega
    noTable := by omega
    tableKept := by omega
    tableFresh := by
      intro _ _
      rw [hsec 12 (by omega), if_pos rfl]
      refine ⟨⟨t, ht, rfl, hclear, hset⟩, fun k hk hlt heq => ?_⟩
      obtain ⟨i, hi, haddr, hfree, -⟩ := h.fresh k hk (by omega)
      rw [← hnew k hk hlt, hsec 12 (by omega), if_pos rfl, heq] at haddr
      exact (hmid i hfree).1 (block_addr_inj ha ht hi haddr).symm
    unused := by
      intro _ k hk hlt
      rw [hblock k hlt, if_neg (by omega), h.others k (by omega), update_of_ne (by omega)]
    all := by
      intro k hk hlt
      by_cases hlast : k < has
      · obtain rfl : k = has - 1 := by omega
        rw [hblock _ (by omega), if_pos (by omega), hsec _ (by omega), if_neg (by omega),
          h.others _ (by omega), update_self]
      · rw [hnew k (by omega) hlt]
    disk := by
      intro i hi hne
      exact (Bytes.blit_outside (by omega)).trans (h.disk i hi)
    free := by
      have h1 := h.free
      have h2 : (bitmapSet s.part.blockBitmap t true).free + 1 = s.part.blockBitmap.free :=
        s.part.blockBitmap.free_bitmap_set hscan
      simp only [Kernel.setInode_part, Kernel.setBlockBit_bits] at h1
      simp only [blocksFor, show ¬will ≤ 12 by omega, hhas, if_true, if_false, Kernel.write_part]
      omega }

/-! ## Collecting the blocks -/

/-- `put` writes the blocks of the file at `p` as `ide_write` does. -/
def PutsOwn (put : UInt32 → Bytes → Call Unit) (p : Ptr) : Prop :=
  ∀ {s : Kernel} {inode : INode} {lba : UInt32} (buf : Bytes), s.inodes p = some inode →
    OwnsBlock s inode lba → put lba buf s = ideWrite lba buf 1 s

theorem PutsOwn.wp (hput : PutsOwn put p) {buf : Bytes} {Q : Unit → Kernel → Prop}
    (hinode : s.inodes p = some inode) (hown : OwnsBlock s inode lba) (hle : lba.toNat ≤ maxLba)
    (hQ : Q () (s.write lba buf)) : wp ok (put lba buf) s Q := by
  have hwrite : Prog.wp ok (ideWrite lba buf 1) s Q := wp_write_sector (.inr hle) hQ
  unfold Prog.wp at hwrite ⊢
  rwa [hput buf hinode hown]

/-- The result of the part of `file_write` that allocates blocks: the blocks are there, or some were
missing. -/
def CollectResult (s : Kernel) (p : Ptr) (inode : INode) (has will : Nat)
    (r : Option (Nat → UInt32)) (last : Kernel) : Prop :=
  (∃ allBlocks inode', r = some allBlocks ∧ Collected s p inode has will allBlocks inode' last) ∨
    r = none ∧ s.part.blockBitmap.free + blocksFor has < blocksFor will ∧
      last.part.blockBitmap.free = 0 ∧ (s.part.blockBitmap.free = 0 → last = s)

theorem owns_sector_twelve (h : inode.sector 12 ≠ 0) :
    OwnsBlock s inode (inode.sector 12) := ⟨h, .inr ⟨h, .inl rfl⟩⟩

/-- The file gets an indirect table and the blocks behind it. -/
theorem wp_alloc_table (hput : PutsOwn put p) (hok : BlocksOk s.part)
    (hinode : s.inodes p = some inode) (hb : FileBlocks s inode has) (hhas : has ≤ 12)
    (hwill : 12 < will) (hmax : will ≤ 140) :
    wp ok (allocTable put p inode has will) s (CollectResult s p inode has will) := by
  simp only [allocTable, wp_bind]
  rw [wp_alloc_block]
  refine ⟨fun hfull => .inr ⟨rfl, ?_, ?_, fun _ => rfl⟩, fun t hscan => ?_⟩
  · have := s.part.blockBitmap.free_eq_zero_iff.2 hfull
    simp only [blocksFor, hhas, show ¬will ≤ 12 by omega, if_true, if_false]
    omega
  · exact s.part.blockBitmap.free_eq_zero_iff.2 hfull
  obtain ⟨ht, hclear, -⟩ := bitmap_scan_one_eq_some _ hscan
  have htable := s.part.blockBitmap.free_bitmap_set hscan
  simp only [wp_assert, hb.noTable hhas, decide_true, of_some, of_true, storeSector,
    wp_bind, wp_deref_inode, Kernel.setBlockBit_inodes, hinode, wp_set_inode]
  have hok' : BlocksOk ((s.setBlockBit t true).setInode p
      (inode.setSector 12 (blockAddr s.part.sb t))).part := by
    refine ⟨hok.areas.setBlockBit t true, ?_, fun i hi hfree => hok.inRange i hi ?_⟩
    · simp [scan_test_bitmap_set, hok.root]
    · simp only [Kernel.setInode_part, Kernel.setBlockBit_bits, scan_test_bitmap_set] at hfree
      by_cases heq : i = t
      · simp [heq] at hfree
      · simpa [heq] using hfree
  refine wp_mono (wp_alloc_blocks hok' (Kernel.setInode_same ..) fun k hk hlt => ?_) ?_
  · rw [INode.sector_set_sector _ _ _ (by omega), if_neg (by omega)]
    exact hb.direct k hk hlt
  · rintro r last ⟨m, hm, inode', blocks', hgrew, ⟨rfl, rfl⟩ | ⟨rfl, hlt, hfull, -⟩⟩
    · have htwelve : inode'.sector 12 = blockAddr s.part.sb t := by
        rw [hgrew.kept 12 (by omega), INode.sector_set_sector _ _ _ (by omega), if_pos rfl]
      simp only [wp_bind]
      rw [← htwelve]
      refine hput.wp hgrew.inode_eq (owns_sector_twelve ?_) ?_ (.inl ⟨_, inode', rfl, ?_⟩)
      · rw [htwelve]
        exact block_addr_ne_zero hok.areas ht
      · rw [htwelve]
        exact hok.inRange t ht hclear
      · exact .of_new_table hok.areas hhas hwill hmax hscan hgrew
    · refine .inr ⟨rfl, ?_, hfull, by omega⟩
      have hfree := hgrew.free
      simp only [Kernel.setInode_part, Kernel.setBlockBit_bits] at hfree
      simp only [blocksFor, hhas, show ¬will ≤ 12 by omega, if_true, if_false]
      omega

/-- The part of `file_write` that allocates blocks. -/
theorem wp_collect_write (hput : PutsOwn put p) (hok : BlocksOk s.part)
    (hinode : s.inodes p = some inode) (hb : FileBlocks s inode has) (hle : has ≤ will)
    (hmax : will ≤ 140) :
    wp ok (collectWrite put p inode has will) s (CollectResult s p inode has will) := by
  have hpos := hb.pos
  unfold collectWrite
  simp only [wp_ite]
  refine ⟨?_, fun hgrow => ⟨fun hwill => ?_, fun hwill => ⟨fun hhas => ?_, fun htable => ?_⟩⟩⟩
  · rintro rfl
    refine ⟨fun hdirect => .inl ⟨_, inode, rfl, .refl hinode hb ?_⟩, fun htable => ?_⟩
    · rw [update_self, blockOf_lt _ _ (by omega)]
    · have htaken := hb.table (by omega)
      simp only [wp_bind, wp_ide_read_words, htaken.in_range,
        htaken.ne_zero hok.areas, ne_eq, forall_const]
      refine ⟨.inl ⟨_, inode, rfl, .refl hinode hb ?_⟩,
        fun hlt => absurd htaken.in_range (by omega)⟩
      rw [withTable, if_pos (by omega), blockOf_ge _ _ (by omega)]
  · have hlast : inode.sector (has - 1) ≠ 0 := by
      rw [← blockOf_lt s.disk inode (by omega)]
      exact (hb.taken _ (by omega)).ne_zero hok.areas
    simp only [hlast, show has - 1 < 13 by omega, ne_eq]
    refine wp_mono (wp_alloc_blocks hok hinode hb.direct) ?_
    rintro r last ⟨m, hm, inode', blocks', hgrew, ⟨rfl, rfl⟩ | ⟨rfl, hlt, hfull, hnone⟩⟩
    · exact .inl ⟨_, inode', rfl, .of_direct hb hle hwill hgrew⟩
    · refine .inr ⟨rfl, ?_, hfull, hnone⟩
      have hfree := hgrew.free
      simp only [blocksFor, hwill, show has ≤ 12 by omega, if_true]
      omega
  · exact wp_alloc_table hput hok hinode hb hhas (by omega) hmax
  · have htaken := hb.table (by omega)
    have hrange := htaken.in_range
    simp only [wp_bind, wp_ide_read_words, hrange, htaken.ne_zero hok.areas, ne_eq, forall_const]
    refine ⟨wp_mono (wp_alloc_blocks hok hinode (by omega)) ?_, by omega⟩
    rintro r last ⟨m, hm, inode', blocks', hgrew, ⟨rfl, rfl⟩ | ⟨rfl, hlt, hfull, hnone⟩⟩
    · have htwelve : inode.sector 12 = inode'.sector 12 := (hgrew.kept 12 (by omega)).symm
      simp only [wp_bind]
      rw [htwelve] at hrange ⊢
      refine hput.wp hgrew.inode_eq (owns_sector_twelve ?_) hrange (.inl ⟨_, inode', rfl, ?_⟩)
      · rw [← htwelve]
        exact htaken.ne_zero hok.areas
      · exact .of_table hb hle hmax (by omega) hgrew
    · refine .inr ⟨rfl, ?_, hfull, hnone⟩
      have hfree := hgrew.free
      simp only [blocksFor, show ¬will ≤ 12 by omega, show ¬has ≤ 12 by omega, if_false]
      omega

/-! ## The first block -/

/-- A well-formed file whose first address is 0 has no blocks. -/
theorem FileOk.empty (h : FileOk s inode) (ha : Areas s.part) (hzero : inode.sector 0 = 0) :
    inode.iSize = 0 ∧ ∀ k < 13, inode.sector k = 0 := by
  rcases h with h | h
  · exact h
  · refine absurd hzero ?_
    exact (h.taken 0 h.pos).ne_zero ha

theorem FileOk.file_blocks (h : FileOk s inode) (hne : inode.sector 0 ≠ 0) :
    FileBlocks s inode (inode.iSize.toNat / 512 + 1) := by
  rcases h with h | h
  · exact absurd (h.2 0 (by omega)) hne
  · exact h

theorem Grew.first (h : Grew s p inode 0 1 blocks inode' blocks' last) (hok : BlocksOk s.part)
    (hzero : ∀ k < 13, inode.sector k = 0) : FileBlocks last inode' 1 := by
  have hrest : ∀ k, 1 ≤ k → k < 13 → inode'.sector k = 0 := by
    intro k hk hlt
    rw [h.kept k (by omega)]
    exact hzero k hlt
  refine ⟨by omega, by omega, ?_, by omega, fun k hk hlt => hrest k hk (by omega), ?_, by omega,
    by omega, by omega⟩
  · intro k hk
    obtain rfl : k = 0 := by omega
    rw [blockOf_lt _ _ (by omega), h.entered 0 (by omega) (by omega) (by omega)]
    exact h.more.fresh hok (h.fresh 0 (by omega) (by omega))
  · exact fun _ => hrest 12 (by omega) (by omega)

/-- The first step of `file_write`: nothing is done for a file that has blocks, and a file without
gets one, if there is one. -/
theorem wp_first_block (hok : BlocksOk s.part) (hinode : s.inodes p = some inode) :
    wp ok (firstBlock p inode) s fun r last =>
      (inode.sector 0 ≠ 0 ∧ r = some () ∧ last = s) ∨
      (inode.sector 0 = 0 ∧ r = some () ∧
        ∃ inode' blocks', Grew s p inode 0 1 (fun _ => 0) inode' blocks' last) ∨
      (inode.sector 0 = 0 ∧ r = none ∧ s.part.blockBitmap.free = 0 ∧ last = s) := by
  unfold firstBlock
  split
  · rename_i hzero
    simp only [wp_bind]
    rw [wp_alloc_block]
    refine ⟨fun hfull => .inr (.inr ⟨hzero, rfl, ?_, rfl⟩), fun i hscan => ?_⟩
    · exact s.part.blockBitmap.free_eq_zero_iff.2 hfull
    obtain ⟨hi, hclear, -⟩ := bitmap_scan_one_eq_some _ hscan
    -- the block of the root directory is taken, so the bit is not the first
    have hne : UInt32.ofNat i ≠ 0 := by
      intro heq
      have h := congrArg UInt32.toNat heq
      rw [bitmap_index_toNat hok.areas hi] at h
      obtain rfl : i = 0 := h
      rw [hok.root] at hclear
      exact Bool.noConfusion hclear
    simp only [wp_bind, storeSector, wp_deref_inode, Kernel.setBlockBit_inodes, hinode, of_some,
      wp_set_inode, wp_state, Kernel.setInode_part, Kernel.setBlockBit_sb, block_addr_sub, hne,
      ne_eq, wp_pure]
    have hone : Grew s p inode 0 1 (fun _ => 0) _ _ _ := Grew.one hok.areas hscan fun _ => 0
    exact wp_sync_block (hok.areas.setBlockBit i true) hi
      (.inr (.inl ⟨hzero, trivial, _, _, hone⟩))
  · rename_i hne
    exact .inl ⟨hne, rfl, rfl⟩

/-! ## A partition -/

/-- A partition of 4096 blocks with a given byte at the start of its block bitmap and another in the
rest. -/
def bitsPartition (first rest : UInt8) : Partition :=
  { tablePartition with
    sb := { tablePartition.sb with
      blockBitmapLba := 65
      blockBitmapSects := 1
      inodeBitmapLba := 66
      inodeBitmapSects := 1
      dataStartLba := 675
      dirEntrySize := 24 }
    blockBitmap := ⟨512, fun i => if i = 0 then first else rest⟩
    inodeBitmap := ⟨512, fun i => if i = 0 then 3 else 0⟩ }

theorem bits_partition_blocks_ok {first : UInt8} (rest : UInt8)
    (hfirst : first.toBitVec.getLsbD 0 = true) : BlocksOk (bitsPartition first rest) := by
  have ha : Areas (bitsPartition 0 0) :=
    ⟨⟨by decide, by decide, by decide⟩, rfl, by decide, rfl, by decide, rfl, by decide, by decide,
      by decide⟩
  refine ⟨⟨⟨ha.table.inPart, ha.table.noWrap, ha.table.inRange⟩, rfl, ha.bootSector, rfl,
    ha.blockArea, rfl, ha.inodeArea, ha.tableArea, ha.dataArea⟩, hfirst, fun i hi _ => ?_⟩
  change i < 4096 at hi
  change ((675 : UInt32) + UInt32.ofNat i).toNat ≤ 163839
  rw [UInt32.toNat_add, UInt32.toNat_ofNat']
  change (675 + _) % _ ≤ _
  omega

/-- A partition with the block of its root directory and one more block in use. -/
def filePartition : Partition := bitsPartition 3 0

theorem file_partition_free : 4088 ≤ filePartition.blockBitmap.free := by
  refine filePartition.blockBitmap.le_free (show 8 + 4088 ≤ 4096 by decide) fun i hi _ => ?_
  have hbyte : filePartition.blockBitmap.bits (i / 8) = 0 := by
    change (if i / 8 = 0 then (3 : UInt8) else 0) = 0
    rw [if_neg (by omega)]
  rw [bitmapScanTest, hbyte]
  simp

/-- A kernel with one open file, whose inode is given. -/
def fileKernel (inode : INode) : Kernel :=
  { Kernel.start with
    heap := ⟨2, [2, 1]⟩
    part := filePartition
    openInodes := [2]
    inodes := fun p => if p = 2 then some inode else none
    fileTable := fun idx => if idx = 3 then ⟨0, 3, some 2⟩ else ⟨0, 0, none⟩ }

end LosKernel
