import LosKernel.Fs.Areas
import LosKernel.Fs.Dir
import LosKernel.Lib.Search

/-!
# Writing a directory entry

`EntrySynced` lists what `sync_dir_entry` can do: it puts the entry into the first free slot of
the direct blocks, or gives the directory a new block. A new block gets the entry twice. In the
last outcome a block is left for the indirect table, but none for the entries.
-/

namespace LosKernel

open Prog hiding update

variable {idx k i : Nat} {lba : UInt32} {blocks : Nat → UInt32} {ok : Stop → Prop} {s : Kernel}
  {p : Ptr} {inode : INode} {e : DirEntry}
open Function (update update_of_ne update_self)
open DirEntry (ofBlock)
open Bytes (blit word words)

/-! ## Entries of a block -/

/-- The name in slot `idx` of a block of directory entries. -/
def slotName (b : Bytes) (idx : Nat) : CStr := cstrAt b (24 * idx) (512 - 24 * idx)

theorem of_block_blit_same (b : Bytes) (idx : Nat) (e : DirEntry) :
    ofBlock (blit b (24 * idx) e.bytes dirEntrySize) idx = e := by
  have hword : ∀ k < 2, word (blit b (24 * idx) e.bytes dirEntrySize)
      (24 * idx + 16 + 4 * k) = if k = 0 then e.iNo else e.fType := by
    intro k hk
    rw [Bytes.word_blit_inside (by omega) (by unfold dirEntrySize; omega)]
    rw [← Bytes.word_words (fun k => if k = 0 then e.iNo else e.fType) k]
    apply Bytes.word_congr
    intro j hj
    have h1 : ¬24 * idx + 16 + 4 * k - 24 * idx + j < 16 := by omega
    have h2 : 24 * idx + 16 + 4 * k - 24 * idx + j - 16 = 4 * k + j := by omega
    simp only [DirEntry.bytes, h1, dite_false, h2]
  have h0 := hword 0 (by omega)
  have h1 := hword 1 (by omega)
  have hname : (fun k : Fin 16 => blit b (24 * idx) e.bytes dirEntrySize (24 * idx + k.val)) =
      e.filename := by
    funext k
    rw [Bytes.blit_inside (by omega) (by unfold dirEntrySize; omega)]
    simp [DirEntry.bytes]
  simp only [if_true, if_neg Nat.one_ne_zero] at h0 h1
  simp only [ofBlock, hname, h0, h1]

theorem of_block_congr {b c : Bytes} (h : ∀ i < 24, b (24 * idx + i) = c (24 * idx + i)) :
    ofBlock b idx = ofBlock c idx := by
  have hword : ∀ k, k + 4 ≤ 24 →
      word b (24 * idx + k) = word c (24 * idx + k) := by
    intro k hk
    apply Bytes.word_congr
    intro j hj
    rw [Nat.add_assoc]
    exact h (k + j) (by omega)
  have hname : (fun k : Fin 16 => b (24 * idx + k.val)) = fun k : Fin 16 => c (24 * idx + k.val) :=
    funext fun k => h k.val (by omega)
  simp only [ofBlock, hname, hword 16 (by omega), hword 20 (by omega)]

theorem of_block_blit_ne (b : Bytes) {idx' : Nat} (src : Bytes) (h : idx' ≠ idx) :
    ofBlock (blit b (24 * idx) src dirEntrySize) idx' = ofBlock b idx' :=
  of_block_congr fun i hi => Bytes.blit_outside (by unfold dirEntrySize; omega)

theorem of_block_zero_type (idx : Nat) : (ofBlock (fun _ => 0) idx).fType = 0 := by
  have hzero : word (fun _ => 0) (24 * idx + 20) = 0 := Bytes.word_eq_zero fun _ _ => rfl
  exact hzero

theorem find_free_is_search (b : Bytes) :
    IsSearch (findFree b) fun idx => (ofBlock b idx).fType = 0 where
  zero _ := rfl
  hit _ _ h := if_pos h
  miss _ _ h := if_neg h

/-! ## What `sync_dir_entry` does -/

/-- A block that exists and has no free slot. -/
def BlockFull (s : Kernel) (lba : UInt32) : Prop :=
  lba ≠ 0 ∧ findFree (sectorAt s.disk lba.toNat) 21 0 = none

/-- The blocks of a directory that `sync_dir_entry` looks at. -/
def directBlocks (inode : INode) (k : Nat) : UInt32 := if k < 12 then inode.sector k else 0

/-- What `sync_dir_entry` leaves in a new block. -/
def doubleEntry (e : DirEntry) : Bytes :=
  blit (blit (fun _ => 0) 0 e.bytes dirEntrySize) 24 e.bytes dirEntrySize

/-- `sync_dir_entry` for the directory with the inode `inode` at `p` returned `r` and left the state
`last`. -/
inductive EntrySynced (s : Kernel) (p : Ptr) (inode : INode) (e : DirEntry) (r : Bool)
    (last : Kernel) : Prop where
  | placed (k j : Nat) (hk : k < 12) (hfull : ∀ k' < k, BlockFull s (inode.sector k'))
      (hused : inode.sector k ≠ 0)
      (hfree : findFree (sectorAt s.disk (inode.sector k).toNat) 21 0 = some j) (hr : r = true)
      (hlast : last = (s.write (inode.sector k) (blit
        (sectorAt s.disk (inode.sector k).toNat) (24 * j) e.bytes dirEntrySize)).setInode p
        { inode with iSize := inode.iSize + 24 })
  | added (k i : Nat) (hk : k < 12) (hfull : ∀ k' < k, BlockFull s (inode.sector k'))
      (hunused : inode.sector k = 0) (hscan : bitmapScan s.part.blockBitmap 1 = some i)
      (hr : r = true)
      (hlast : last = ((s.takeBlock i).write (blockAddr s.part.sb i) (doubleEntry e)).setInode p
        { inode.setSector k (blockAddr s.part.sb i) with iSize := inode.iSize + 48 })
  | refused (k : Nat) (hk : k ≤ 12) (hfull : ∀ k' < k, BlockFull s (inode.sector k'))
      (hunused : directBlocks inode k = 0) (hscan : bitmapScan s.part.blockBitmap 1 = none)
      (hr : r = false) (hlast : last = s)
  | tabled (i i' : Nat) (hfull : ∀ k < 12, BlockFull s (inode.sector k))
      (hscan : bitmapScan s.part.blockBitmap 1 = some i)
      (hscan' : bitmapScan (bitmapSet s.part.blockBitmap i true) 1 = some i') (hr : r = true)
      (hlast : last = ((((s.takeBlock i).takeBlock i').write (blockAddr s.part.sb i)
        (words fun j => if j = 0 then blockAddr s.part.sb i' else 0)).write
          (blockAddr s.part.sb i') (doubleEntry e)).setInode p
        { inode.setSector 12 (blockAddr s.part.sb i) with iSize := inode.iSize + 48 })
  | lost (i : Nat) (hfull : ∀ k < 12, BlockFull s (inode.sector k))
      (hscan : bitmapScan s.part.blockBitmap 1 = some i)
      (hscan' : bitmapScan (bitmapSet s.part.blockBitmap i true) 1 = none) (hr : r = false)
      (hlast : last = ((s.takeBlock i).setBlockBit i false).setInode p (inode.setSector 12 0))

/-- What makes `sync_dir_entry` return: the size of the directory is in order, and its blocks and
the free blocks can be addressed. -/
structure DirReady (s : Kernel) (inode : INode) : Prop where
  size : inode.iSize % 24 = 0
  inRange : ∀ k < 12, (inode.sector k).toNat ≤ maxLba
  free : ∀ i < 8 * s.part.blockBitmap.btmpBytesLen, bitmapScanTest s.part.blockBitmap i = false →
    s.part.sb.dataStartLba.toNat + i ≤ maxLba

/-- The new block of a directory that has none at index `k`: the state `base` has it, and `inode'`
refers to it. -/
inductive NewBlock (s : Kernel) (inode : INode) (k : Nat) (base : Kernel) (inode' : INode)
    (i : Nat) : Prop where
  | direct (hk : k < 12) (hscan : bitmapScan s.part.blockBitmap 1 = some i)
      (hbase : base = s.takeBlock i)
      (hinode : inode' = inode.setSector k (blockAddr s.part.sb i))
  | indirect (i₀ : Nat) (hk : k = 12) (hscan : bitmapScan s.part.blockBitmap 1 = some i₀)
      (hscan' : bitmapScan (bitmapSet s.part.blockBitmap i₀ true) 1 = some i)
      (hbase : base = ((s.takeBlock i₀).takeBlock i).write (blockAddr s.part.sb i₀)
        (words fun j => if j = 0 then blockAddr s.part.sb i else 0))
      (hinode : inode' = inode.setSector 12 (blockAddr s.part.sb i₀))

theorem set_sector_set_sector (inode : INode) (k : Nat) (lba lba' : UInt32) :
    (inode.setSector k lba).setSector k lba' = inode.setSector k lba' := by
  unfold INode.setSector
  congr 1
  funext j
  by_cases hj : j.val = k <;> simp [hj]

theorem wp_store_sector {Q : Unit → Kernel → Prop} (hinode : s.inodes p = some inode)
    (hQ : Q () (s.setInode p (inode.setSector k lba))) :
    wp ok (storeSector p k lba) s Q := by
  simp only [storeSector, wp_bind, wp_deref_inode, hinode, of_some]
  exact hQ

/-- The first indirect block: a second block is taken, or the first given back in memory only. -/
theorem place_block_indirect_spec (hareas : Areas s.part) (hinode : s.inodes p = some inode)
    (hi : i < 8 * s.part.blockBitmap.btmpBytesLen)
    (hok : (∀ r, ok r) ∨ (blockAddr s.part.sb i).toNat ≤ maxLba) :
    wp ok (placeBlock p 12 blocks (blockAddr s.part.sb i)) s fun r mid =>
      r = none ∧ bitmapScan s.part.blockBitmap 1 = none ∧
        mid = (s.setBlockBit i false).setInode p (inode.setSector 12 0) ∨
      ∃ i', r = some (update blocks 12 (blockAddr s.part.sb i')) ∧
        bitmapScan s.part.blockBitmap 1 = some i' ∧
        mid = ((s.takeBlock i').write (blockAddr s.part.sb i) (words fun j =>
          update blocks 12 (blockAddr s.part.sb i') (12 + j))).setInode p
            (inode.setSector 12 (blockAddr s.part.sb i)) := by
  unfold placeBlock
  rw [if_neg (by omega), if_pos rfl, wp_bind]
  refine wp_store_sector hinode ?_
  rw [wp_bind, wp_alloc_block]
  refine ⟨fun hscan => ?_, fun i' hscan => ?_⟩
  · simp only [wp_bind, wp_state, Kernel.setInode_part, block_addr_sub]
    refine wp_set_block hareas hi (wp_store_sector (Kernel.setInode_same ..) ?_)
    rw [set_sector_set_sector]
    exact .inl ⟨rfl, hscan, by simp [Kernel.setInode, Kernel.setBlockBit]⟩
  · obtain ⟨hi', -, -⟩ := bitmap_scan_one_eq_some _ hscan
    simp only [wp_bind, wp_state, Kernel.setBlockBit_sb,
      block_addr_sub, bitmap_index_ne hareas hi', ne_eq]
    refine wp_sync_block (hareas.setBlockBit i' true) hi' (wp_write_sector hok ?_)
    exact .inr ⟨i', rfl, hscan, rfl⟩
theorem wp_fill_block {buf : Bytes} {Q : Option (Nat → UInt32) → Kernel → Prop}
    (hareas : Areas s.part) (hinode : s.inodes p = some inode) (hk : blocks k = lba)
    (hok : (∀ r, ok r) ∨ lba.toNat ≤ maxLba)
    (hQ : Q (some blocks) ((s.write lba buf).setInode p { inode with iSize := inode.iSize + 24 })) :
    wp ok (do ideWrite (blocks k) buf 1; growDir p; pure (some blocks)) s Q := by
  subst hk
  rw [wp_bind]
  refine wp_write_sector hok ?_
  simp only [growDir, wp_bind, wp_state, wp_deref_inode, Kernel.write_inodes, hinode,
    of_some, Kernel.write_part, hareas.entrySize]
  exact hQ

/-- A new block is made for the entry, or there are too few free blocks. -/
theorem sync_new_block_spec (hareas : Areas s.part) (hinode : s.inodes p = some inode) (hk : k ≤ 12)
    (hok : (∀ r, ok r) ∨ DirReady s inode) :
    wp ok (syncNewBlock p e k (directBlocks inode)) s fun r mid =>
      (r = none ∧ (bitmapScan s.part.blockBitmap 1 = none ∧ mid = s ∨
        k = 12 ∧ ∃ i, bitmapScan s.part.blockBitmap 1 = some i ∧
          bitmapScan (bitmapSet s.part.blockBitmap i true) 1 = none ∧
          mid = ((s.takeBlock i).setBlockBit i false).setInode p (inode.setSector 12 0))) ∨
      ∃ blocks base inode' i, r = some blocks ∧ blocks k = blockAddr s.part.sb i ∧
        NewBlock s inode k base inode' i ∧
        mid = (base.write (blockAddr s.part.sb i)
          (blit (fun _ => 0) 0 e.bytes dirEntrySize)).setInode p
            { inode' with iSize := inode.iSize + 24 } := by
  have hwrite : ∀ i, i < 8 * s.part.blockBitmap.btmpBytesLen →
      bitmapScanTest s.part.blockBitmap i = false →
      (∀ r, ok r) ∨ (blockAddr s.part.sb i).toNat ≤ maxLba := by
    intro i hi hclear
    rw [block_addr_toNat hareas hi]
    exact hok.imp_right fun h => h.free i hi hclear
  unfold syncNewBlock
  rw [wp_bind, wp_alloc_block]
  refine ⟨fun hscan => .inl ⟨rfl, .inl ⟨hscan, rfl⟩⟩, fun i hscan => ?_⟩
  obtain ⟨hi, hclear, -⟩ := bitmap_scan_one_eq_some _ hscan
  simp only [wp_bind, wp_state, Kernel.setBlockBit_sb, block_addr_sub,
    bitmap_index_ne hareas hi, ne_eq]
  refine wp_sync_block (hareas.setBlockBit i true) hi ?_
  have htaken : Areas (s.takeBlock i).part := hareas.setBlockBit i true
  by_cases hlt : k < 12
  · rw [placeBlock, if_pos hlt, wp_bind]
    refine wp_store_sector (s := s.takeBlock i) hinode ?_
    refine wp_fill_block htaken (Kernel.setInode_same ..) (update_self ..)
      (hwrite i hi hclear) ?_
    refine .inr ⟨_, _, _, i, rfl, update_self .., .direct hlt hscan rfl rfl, ?_⟩
    simp [Kernel.setInode, Kernel.write, INode.setSector]
  · obtain rfl : k = 12 := by omega
    refine wp_mono (place_block_indirect_spec (s := s.takeBlock i) htaken hinode hi
      (hwrite i hi hclear)) ?_
    rintro r mid (⟨rfl, hscan', rfl⟩ | ⟨i', rfl, hscan', rfl⟩)
    · exact .inl ⟨rfl, .inr ⟨rfl, i, hscan, hscan', rfl⟩⟩
    · obtain ⟨hi', hclear', -⟩ := bitmap_scan_one_eq_some _ hscan'
      rw [Kernel.takeBlock_bits, scan_test_bitmap_set] at hclear'
      have hne : i' ≠ i := by
        rintro rfl
        simp at hclear'
      rw [if_neg hne] at hclear'
      refine wp_fill_block (htaken.setBlockBit i' true) (Kernel.setInode_same ..)
        (update_self ..) (hwrite i' hi' hclear') ?_
      refine .inr ⟨_, _, _, i', rfl, update_self ..,
        .indirect i rfl hscan hscan' rfl rfl, ?_⟩
      have htable : (fun j => update (directBlocks inode) 12
          (blockAddr (s.takeBlock i).part.sb i') (12 + j)) =
          fun j => if j = 0 then blockAddr s.part.sb i' else 0 := by
        funext j
        by_cases hj : j = 0
        · subst hj
          simp
        · rw [update_of_ne (by omega), if_neg hj, directBlocks, if_neg (by omega)]
      simp only [htable]
      simp [Kernel.setInode, Kernel.write, INode.setSector]
theorem dir_entrys_per_sec_eq {part : Partition} (hareas : Areas part) :
    dirEntrysPerSec part.sb = 21 := by
  simp [dirEntrysPerSec, hareas.entrySize]

/-- The entry goes to the first free slot of a block. -/
theorem sync_into_block_spec (hareas : Areas s.part) (hinode : s.inodes p = some inode)
    (hok : (∀ r, ok r) ∨ lba.toNat ≤ maxLba) :
    wp ok (syncIntoBlock p e lba) s fun r last =>
      r = false ∧ findFree (sectorAt s.disk lba.toNat) 21 0 = none ∧ last = s ∨
      r = true ∧ ∃ j, findFree (sectorAt s.disk lba.toNat) 21 0 = some j ∧
        last = (s.write lba (blit (sectorAt s.disk lba.toNat) (24 * j) e.bytes
          dirEntrySize)).setInode p { inode with iSize := inode.iSize + 24 } := by
  unfold syncIntoBlock
  rw [wp_bind, wp_state, wp_bind]
  refine wp_read_sector hok ?_
  rw [dir_entrys_per_sec_eq hareas]
  cases hfree : findFree (sectorAt s.disk lba.toNat) 21 0 with
  | none => exact .inl ⟨rfl, rfl, rfl⟩
  | some j =>
    simp only [wp_bind]
    refine wp_write_sector hok ?_
    simp only [growDir, wp_bind, wp_state, wp_deref_inode, Kernel.write_inodes, hinode,
      of_some, Kernel.write_part, hareas.entrySize, wp_pure]
    exact .inr ⟨trivial, j, rfl, rfl⟩

/-- In a block that holds one entry in its first slot, the second slot is the first free one. -/
theorem find_free_new_block (he : e.fType ≠ 0) :
    findFree (blit (fun _ => 0) 0 e.bytes dirEntrySize) 21 0 = some 1 := by
  have h0 := of_block_blit_same (fun _ => 0) 0 e
  have h1 := of_block_blit_ne (fun _ => 0) e.bytes (show 1 ≠ 0 by decide)
  have h2 := of_block_zero_type 1
  simp [findFree, h0, h1, h2, he, FileType.code]

/-- The block that was just made is read back. -/
theorem sector_at_new_block (s : Kernel) (lba : UInt32) (e : DirEntry) :
    sectorAt (s.write lba (blit (fun _ => 0) 0 e.bytes dirEntrySize)).disk lba.toNat =
      blit (fun _ => 0) 0 e.bytes dirEntrySize := by
  rw [Kernel.write_disk, sectorAt_blit, if_pos rfl]
  funext i
  unfold clip
  split
  · rfl
  · rw [Bytes.blit_outside (by unfold dirEntrySize; omega)]

/-- A new block gets the entry a second time. -/
theorem sync_into_new_block {base : Kernel} {inode' : INode} (hareas : Areas s.part)
    (he : e.fType ≠ 0) (hnew : NewBlock s inode k base inode' i)
    (hok : (∀ r, ok r) ∨ (blockAddr s.part.sb i).toNat ≤ maxLba) :
    wp ok (syncIntoBlock p e (blockAddr s.part.sb i)) ((base.write (blockAddr s.part.sb i)
      (blit (fun _ => 0) 0 e.bytes dirEntrySize)).setInode p
        { inode' with iSize := inode.iSize + 24 }) fun r last =>
      r = true ∧ last = (base.write (blockAddr s.part.sb i) (doubleEntry e)).setInode p
        { inode' with iSize := inode.iSize + 48 } := by
  have hbase : Areas base.part := by
    cases hnew with
    | direct hk hscan hbase hinode => exact hbase ▸ hareas.setBlockBit i true
    | indirect i₀ hk hscan hscan' hbase hinode =>
      have hfirst : Areas (s.takeBlock i₀).part := hareas.setBlockBit i₀ true
      exact hbase ▸ hfirst.setBlockBit i true
  have hsize : inode.iSize + 24 + 24 = inode.iSize + 48 := by grind
  refine wp_mono (sync_into_block_spec hbase (Kernel.setInode_same ..) hok) ?_
  simp only [Kernel.setInode_disk, sector_at_new_block, find_free_new_block he]
  rintro r last (⟨-, h, -⟩ | ⟨rfl, j, hj, rfl⟩)
  · simp at h
  · obtain rfl := Option.some.inj hj
    refine ⟨rfl, ?_⟩
    have hcomm : ∀ (t : Kernel) (x : INode) (buf : Bytes),
        (t.setInode p x).write (blockAddr s.part.sb i) buf =
          (t.write (blockAddr s.part.sb i) buf).setInode p x := fun _ _ _ => rfl
    rw [hcomm, Kernel.write_write, Kernel.setInode_setInode]
    simp only [hsize]
    rfl
theorem sync_blocks_new (count : Nat) (hareas : Areas s.part) (hinode : s.inodes p = some inode)
    (he : e.fType ≠ 0) (hok : (∀ r, ok r) ∨ DirReady s inode) (hk : k ≤ 12)
    (hfull : ∀ k' < k, BlockFull s (inode.sector k')) (hunused : directBlocks inode k = 0) :
    wp ok (syncBlocks p e (count + 1) k (directBlocks inode)) s fun r last =>
      EntrySynced s p inode e r last := by
  rw [syncBlocks, ensureBlock, if_pos hunused]
  refine wp_seq (sync_new_block_spec hareas hinode hk hok) ?_
  rintro r mid (⟨rfl, ⟨hscan, rfl⟩ | ⟨rfl, i, hscan, hscan', rfl⟩⟩ |
    ⟨blocks, base, inode', i, rfl, hblock, hnew, rfl⟩)
  · exact .refused k hk hfull hunused hscan rfl rfl
  · exact .lost i hfull hscan hscan' rfl rfl
  · have hrange : (∀ r, ok r) ∨ (blockAddr s.part.sb i).toNat ≤ maxLba := by
      refine hok.imp_right fun hready => ?_
      have hfree : i < 8 * s.part.blockBitmap.btmpBytesLen ∧
          bitmapScanTest s.part.blockBitmap i = false := by
        cases hnew with
        | direct hk hscan hbase hinode =>
          exact ⟨(bitmap_scan_one_eq_some _ hscan).1, (bitmap_scan_one_eq_some _ hscan).2.1⟩
        | indirect i₀ hk hscan hscan' hbase hinode =>
          obtain ⟨hi, hclear, -⟩ := bitmap_scan_one_eq_some _ hscan'
          rw [scan_test_bitmap_set] at hclear
          refine ⟨hi, ?_⟩
          split at hclear
          · simp at hclear
          · exact hclear
      rw [block_addr_toNat hareas hfree.1]
      exact hready.free i hfree.1 hfree.2
    simp only [wp_bind, hblock]
    refine wp_mono (sync_into_new_block hareas he hnew hrange) ?_
    rintro r last ⟨rfl, rfl⟩
    cases hnew with
    | direct hk hscan hbase hinode =>
      subst hbase hinode
      refine .added k i hk hfull ?_ hscan rfl rfl
      simpa [directBlocks, hk] using hunused
    | indirect i₀ hk hscan hscan' hbase hinode =>
      subst hbase hinode hk
      exact .tabled i₀ i hfull hscan hscan' rfl rfl

/-- The loop of `sync_dir_entry` from index `k` on, when the blocks before it are full. -/
theorem sync_blocks_spec (hareas : Areas s.part) (hinode : s.inodes p = some inode)
    (he : e.fType ≠ 0) (hok : (∀ r, ok r) ∨ DirReady s inode) (m : Nat) : ∀ k, k + m = 12 →
    (∀ k' < k, BlockFull s (inode.sector k')) →
    wp ok (syncBlocks p e (m + 128) k (directBlocks inode)) s fun r last =>
      EntrySynced s p inode e r last := by
  induction m with
  | zero =>
    intro k hk hfull
    obtain rfl : k = 12 := by omega
    exact sync_blocks_new 127 hareas hinode he hok le_rfl hfull rfl
  | succ m ih =>
    intro k hk hfull
    have hdirect : directBlocks inode k = inode.sector k := if_pos (by omega)
    by_cases hunused : inode.sector k = 0
    · exact sync_blocks_new _ hareas hinode he hok (by omega) hfull (hdirect.trans hunused)
    · rw [syncBlocks, ensureBlock, hdirect, if_neg hunused]
      simp only [wp_bind, wp_pure, hdirect]
      refine wp_mono (sync_into_block_spec hareas hinode
        (hok.imp_right fun h => h.inRange k (by omega))) ?_
      rintro r last (⟨rfl, hfree, rfl⟩ | ⟨rfl, j, hfree, rfl⟩)
      · refine ih (k + 1) (by omega) fun k' hk' => ?_
        rcases Nat.lt_succ_iff_lt_or_eq.1 hk' with hlt | rfl
        · exact hfull k' hlt
        · exact ⟨hunused, hfree⟩
      · exact .placed k j (by omega) hfull hunused hfree rfl rfl

/-- `sync_dir_entry` has one of the outcomes of `EntrySynced`. -/
theorem sync_dir_entry_spec {d : Ptr} (hareas : Areas s.part) (he : e.fType ≠ 0)
    (hok : (∀ r, ok r) ∨ ∃ dir inode, s.dirs.lookup d = some dir ∧
      s.inodes dir.inode = some inode ∧ DirReady s inode) :
    wp ok (syncDirEntry d e) s fun r last =>
      ∃ dir inode, s.dirs.lookup d = some dir ∧ s.inodes dir.inode = some inode ∧
        EntrySynced s dir.inode inode e r last := by
  have hblocks : ∀ dir inode, s.dirs.lookup d = some dir → s.inodes dir.inode = some inode →
      (∀ r, ok r) ∨ DirReady s inode →
      wp ok (syncBlocks dir.inode e 140 0 (directBlocks inode)) s fun r last =>
        ∃ dir inode, s.dirs.lookup d = some dir ∧ s.inodes dir.inode = some inode ∧
          EntrySynced s dir.inode inode e r last := fun dir inode hdir hinode hok =>
    wp_mono (sync_blocks_spec hareas hinode he hok 12 0 rfl (by omega)) fun _ _ h =>
      ⟨dir, inode, hdir, hinode, h⟩
  simp only [syncDirEntry, wp_bind, wp_deref_dir, wp_deref_inode, wp_state, wp_assert,
    hareas.entrySize, decide_eq_false_iff_not]
  rcases hok with hok | ⟨dir, inode, hdir, hinode, hready⟩
  · refine ⟨fun dir hdir => ⟨fun inode hinode => ⟨fun _ => ?_, fun _ => hok _⟩, fun _ => hok _⟩,
      fun _ => hok _⟩
    exact hblocks dir inode hdir hinode (.inl hok)
  · refine ⟨fun dir' hdir' => ?_, fun hnone => absurd (hdir.symm.trans hnone) (by simp)⟩
    obtain rfl : dir = dir' := Option.some.inj (hdir.symm.trans hdir')
    refine ⟨fun inode' hinode' => ?_, fun hnone => absurd (hinode.symm.trans hnone) (by simp)⟩
    obtain rfl : inode = inode' := Option.some.inj (hinode.symm.trans hinode')
    exact ⟨fun _ => hblocks dir inode hdir hinode (.inr hready), fun h => absurd hready.size h⟩

end LosKernel
