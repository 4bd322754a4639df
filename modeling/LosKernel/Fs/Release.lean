import LosKernel.Fs.Cache
import LosKernel.Fs.FileAppend

/-!
# Releasing an inode

`inode_release` gives back the blocks of an inode one after the other, each in the bitmap in
memory and then in its sector on disk, clears the bit of the inode and zeroes its record. `Freed`
is the invariant of the loop, and `inode_release_exact` says that the bits of the inode are
cleared and no other. A whole sector is written for each bit, so on disk this needs copies of the
bitmaps in line with memory; `inode_release_writes_stale_bit` is a release with one that is not.
-/

namespace LosKernel

open Prog

variable {s mid last : Kernel} {m m' : BitMap} {cleared : Nat → Prop} {lba n : UInt32}
  {inode : INode} {part : Partition} {lbas lbas' : List UInt32} {ok : Stop → Prop}
  {disk disk' : Bytes}

/-! ## Bitmaps on disk -/

/-- The copy of the bitmap `m` on disk, from sector `lba` on. -/
def diskBits (disk : Bytes) (lba : UInt32) (m : BitMap) : BitMap :=
  ⟨m.btmpBytesLen, Bytes.shift disk (512 * lba.toNat)⟩

/-- The copy of the bitmap `m` on disk, from sector `lba` on, is in line with it. -/
def InLine (disk : Bytes) (lba : UInt32) (m : BitMap) : Prop :=
  ∀ k < m.btmpBytesLen, disk (512 * lba.toNat + k) = m.bits k

theorem InLine.congr (h : InLine disk lba m)
    (hsame : ∀ k < m.btmpBytesLen, disk' (512 * lba.toNat + k) = disk (512 * lba.toNat + k)) :
    InLine disk' lba m := fun k hk => (hsame k hk).trans (h k hk)

/-- A bit is changed and the sector of the copy that holds it is written. -/
theorem InLine.sync (h : InLine disk lba m) (i : Nat) (value : Bool) :
    InLine (Bytes.blit disk (512 * (lba.toNat + i / 4096))
      (Bytes.shift (bitmapSet m i value).bits (512 * (i / 4096))) 512) lba
        (bitmapSet m i value) := by
  intro k hk
  by_cases hsector : k / 512 = i / 4096
  · rw [Bytes.blit_inside (by omega) (by omega), Bytes.shift_apply]
    congr 1
    omega
  · rw [Bytes.blit_outside (by omega), h k hk]
    exact (Function.update_of_ne (by omega) _ _).symm

/-! ## Giving blocks back -/

/-- A block of the data area other than its first, which belongs to the root directory. -/
def Releasable (part : Partition) (lba : UInt32) : Prop :=
  ∃ i, 0 < i ∧ i < 8 * part.blockBitmap.btmpBytesLen ∧ lba = blockAddr part.sb i

/-- `last` is `s` after the blocks `lbas` were given back. -/
structure Freed (s : Kernel) (lbas : List UInt32) (last : Kernel) : Prop where
  rest : last = { s with
    disk := last.disk
    part := { s.part with blockBitmap := last.part.blockBitmap } }
  len : last.part.blockBitmap.btmpBytesLen = s.part.blockBitmap.btmpBytesLen
  bits : ∀ i < 8 * s.part.blockBitmap.btmpBytesLen, bitmapScanTest last.part.blockBitmap i =
    if blockAddr s.part.sb i ∈ lbas then false else bitmapScanTest s.part.blockBitmap i
  inLine : InLine s.disk s.part.sb.blockBitmapLba s.part.blockBitmap →
    InLine last.disk s.part.sb.blockBitmapLba last.part.blockBitmap
  outside : ∀ x, ¬InBlockBits s.part.sb x → last.disk x = s.disk x

namespace Freed

theorem part_eq (h : Freed s lbas last) :
    last.part = { s.part with blockBitmap := last.part.blockBitmap } :=
  congrArg Kernel.part h.rest

theorem sb_eq (h : Freed s lbas last) : last.part.sb = s.part.sb := by
  rw [h.part_eq]

theorem areas (h : Freed s lbas last) (ha : Areas s.part) : Areas last.part := by
  rw [h.part_eq]
  exact ha.of_bits h.len rfl

theorem releasable (h : Freed s lbas last) (hlba : Releasable s.part lba) :
    Releasable last.part lba := by
  obtain ⟨i, hpos, hi, rfl⟩ := hlba
  exact ⟨i, hpos, h.len ▸ hi, by rw [h.sb_eq]⟩

theorem nil (s : Kernel) : Freed s [] s where
  rest := rfl
  len := rfl
  bits _ _ := by simp
  inLine := id
  outside _ _ := rfl

theorem append (h : Freed s lbas mid) (h' : Freed mid lbas' last) :
    Freed s (lbas ++ lbas') last where
  rest := by
    conv_lhs => rw [h'.rest, h.rest]
  len := h'.len.trans h.len
  bits := by
    intro i hi
    rw [h'.bits i (h.len ▸ hi), h.sb_eq, h.bits i hi]
    by_cases hl : blockAddr s.part.sb i ∈ lbas
    · simp [hl]
    · simp [hl]
  inLine := by
    have hline := h'.inLine
    rw [h.sb_eq] at hline
    exact hline ∘ h.inLine
  outside := by
    intro x hx
    rw [h'.outside x (h.sb_eq ▸ hx), h.outside x hx]

end Freed

/-- A block is given back in memory and on disk. -/
theorem release_block_spec (ha : Areas s.part) (hlba : Releasable s.part lba) :
    wp ok (releaseBlock lba) s fun _ last => Freed s [lba] last := by
  obtain ⟨i, hpos, hi, rfl⟩ := hlba
  have hindex : 0 < UInt32.ofNat i := by
    rw [UInt32.lt_iff_toNat_lt, bitmap_index_toNat ha hi]
    exact hpos
  simp only [releaseBlock, wp_bind, wp_state, block_addr_sub, hindex]
  refine wp_set_block ha hi (wp_sync_block (ha.setBlockBit i false) hi ?_)
  have hlen := ha.blockLen
  refine ⟨rfl, rfl, fun j hj => ?_, fun hline => hline.sync i false, fun x hx => ?_⟩
  · have haddr : blockAddr s.part.sb j ∈ [blockAddr s.part.sb i] ↔ j = i := by
      rw [List.mem_singleton]
      exact ⟨block_addr_inj ha hj hi, fun heq => by rw [heq]⟩
    show bitmapScanTest (bitmapSet s.part.blockBitmap i false) j = _
    rw [scan_test_bitmap_set]
    by_cases heq : j = i <;> simp [haddr]
  · unfold InBlockBits at hx
    refine Bytes.blit_outside ?_
    show x < 512 * (s.part.sb.blockBitmapLba.toNat + i / 4096) ∨
      512 * (s.part.sb.blockBitmapLba.toNat + i / 4096) + 512 ≤ x
    omega

/-- The loop of `inode_release` gives back the blocks that are not 0. -/
theorem release_blocks_spec {allBlocks : Nat → UInt32} (count : Nat) : ∀ {s : Kernel} (idx : Nat),
    Areas s.part →
    (∀ k, idx ≤ k → k < idx + count → allBlocks k ≠ 0 → Releasable s.part (allBlocks k)) →
    wp ok (releaseBlocks allBlocks count idx) s fun _ last =>
      Freed s (((List.range' idx count).map allBlocks).filter (· ≠ 0)) last := by
  induction count with
  | zero => exact fun {s} _ _ _ => Freed.nil s
  | succ count ih =>
    intro s idx ha hblocks
    simp only [releaseBlocks, wp_bind, wp_when, List.range'_succ, List.map_cons]
    refine ⟨fun hused => ?_, fun hzero => ?_⟩
    · have hlba := hblocks idx le_rfl (by omega) hused
      refine wp_mono (release_block_spec ha hlba) fun _ mid hmid => ?_
      refine wp_mono (ih (idx + 1) (hmid.areas ha) fun k hle hlt hk => ?_) ?_
      · exact hmid.releasable (hblocks k (by omega) (by omega) hk)
      · intro _ last hlast
        rw [List.filter_cons_of_pos (by simpa using hused)]
        exact hmid.append hlast
    · rw [List.filter_cons_of_neg (by simpa using hzero)]
      exact ih (idx + 1) ha fun k hle hlt => hblocks k (by omega) (by omega)

/-! ## The inode and its blocks -/

/-- The blocks of an inode in the order in which they are given back: the indirect table and the
blocks that `all_blocks` lists. -/
def ownedBlocks (disk : Bytes) (inode : INode) : List UInt32 :=
  (if inode.sector 12 ≠ 0 then [inode.sector 12] else []) ++
    ((List.range' 0 (if inode.sector 12 ≠ 0 then 140 else 12)).map (blocksOf disk inode)).filter
      (· ≠ 0)

/-- The bits in `cleared`, and no other, were cleared. -/
def BitsCleared (cleared : Nat → Prop) (m m' : BitMap) : Prop :=
  ∀ i < 8 * m.btmpBytesLen, (cleared i → bitmapScanTest m' i = false) ∧
    (¬cleared i → bitmapScanTest m' i = bitmapScanTest m i)

/-- What was cleared in memory was cleared on disk, if the copy was and is in line. -/
theorem BitsCleared.on_disk (h : BitsCleared cleared m m')
    (hlen : m'.btmpBytesLen = m.btmpBytesLen) (hline : InLine disk lba m)
    (hline' : InLine disk' lba m') :
    BitsCleared cleared (diskBits disk lba m) (diskBits disk' lba m) := by
  have hbit : ∀ {disk m}, InLine disk lba m → ∀ {b : BitMap} (i : Nat), i < 8 * m.btmpBytesLen →
      bitmapScanTest (diskBits disk lba b) i = bitmapScanTest m i := by
    intro disk m hline b i hi
    simp only [bitmapScanTest, diskBits, Bytes.shift_apply, hline (i / 8) (by omega)]
  intro i hi
  have hi' : i < 8 * m.btmpBytesLen := hi
  rw [hbit hline i hi', hbit hline' i (hlen.symm ▸ hi')]
  exact h i hi'

/-- What `inode_release` needs: inode `n` is allocated, and its blocks are distinct, in use, and
above the first block of the data area. -/
structure ReleaseOk (s : Kernel) (n : UInt32) : Prop where
  areas : Areas s.part
  number : n.toNat < 4096
  inBitmap : n.toNat < 8 * s.part.inodeBitmap.btmpBytesLen
  allocated : bitmapScanTest s.part.inodeBitmap n.toNat = true
  iNo : (inodeVersion s n).iNo = n
  distinct : (ownedBlocks s.disk (inodeVersion s n)).Nodup
  taken : ∀ lba ∈ ownedBlocks s.disk (inodeVersion s n), Taken s.part lba
  above : ∀ lba ∈ ownedBlocks s.disk (inodeVersion s n), s.part.sb.dataStartLba < lba

/-- The copies of both bitmaps on disk are in line with memory. -/
def BitmapsInLine (s : Kernel) : Prop :=
  InLine s.disk s.part.sb.blockBitmapLba s.part.blockBitmap ∧
    InLine s.disk s.part.sb.inodeBitmapLba s.part.inodeBitmap

/-- The blocks and the number of inode `n` were given back on disk, and no others. -/
def ReleasedOnDisk (s : Kernel) (n : UInt32) (last : Kernel) : Prop :=
  BitsCleared (blockAddr s.part.sb · ∈ ownedBlocks s.disk (inodeVersion s n))
      (diskBits s.disk s.part.sb.blockBitmapLba s.part.blockBitmap)
      (diskBits last.disk s.part.sb.blockBitmapLba s.part.blockBitmap) ∧
    BitsCleared (· = n.toNat) (diskBits s.disk s.part.sb.inodeBitmapLba s.part.inodeBitmap)
      (diskBits last.disk s.part.sb.inodeBitmapLba s.part.inodeBitmap)

/-- `inode_release` of inode `n` led from `s` to `last`. -/
structure Released (s : Kernel) (n : UInt32) (last : Kernel) : Prop where
  blocks : BitsCleared (blockAddr s.part.sb · ∈ ownedBlocks s.disk (inodeVersion s n))
    s.part.blockBitmap last.part.blockBitmap
  inodes : BitsCleared (· = n.toNat) s.part.inodeBitmap last.part.inodeBitmap
  onDisk : BitmapsInLine s → ReleasedOnDisk s n last
  record : ∀ k < inodeSize, last.disk (inodeOffset s.part.sb n.toNat + k) = 0
  free : last.part.blockBitmap.free =
    s.part.blockBitmap.free + (ownedBlocks s.disk (inodeVersion s n)).length

/-! ## The last steps -/

/-- The bit of inode `n` is cleared in memory. -/
def Kernel.clearInodeBit (s : Kernel) (n : Nat) : Kernel :=
  { s with part := { s.part with inodeBitmap := bitmapSet s.part.inodeBitmap n false } }

/-- The state after the bit of inode `n` and its record were cleared. -/
def Kernel.dropInodeNo (s : Kernel) (n : Nat) : Kernel :=
  storeRecord ((s.clearInodeBit n).syncInodeBits (n / 4096)) n fun _ => 0

theorem Kernel.dropInodeNo_disk (s : Kernel) (n : Nat) :
    (s.dropInodeNo n).disk = Bytes.blit ((s.clearInodeBit n).syncInodeBits (n / 4096)).disk
      (inodeOffset s.part.sb n) (fun _ => 0) inodeSize := rfl

theorem Areas.clearInodeBit (h : Areas s.part) (n : Nat) :
    Areas (s.clearInodeBit n).part := h.of_bits rfl rfl

/-- The end of `inode_release`: the number is given back and the record is cleared. -/
theorem release_number_spec {p : Ptr} (ha : Areas s.part) (hheap : HeapOk s) (hn : n.toNat < 4096)
    (hbits : n.toNat < 8 * s.part.inodeBitmap.btmpBytesLen) (hinode : s.inodes p = some inode)
    (hmem : p ∈ s.openInodes) :
    wp never (do
      inodeBitmapSet n false
      bitmapSync n .inode
      let ioBuf ← nonNull (← sysMalloc 1024)
      inodeDelete n 1024
      sysFree ioBuf
      inodeClose p) s fun _ last =>
        last.disk = (s.dropInodeNo n.toNat).disk ∧ last.part = (s.dropInodeNo n.toNat).part := by
  have hab : Areas (s.clearInodeBit n.toNat).part := ha.clearInodeBit n.toNat
  have hlen : n.toNat / 8 < s.part.inodeBitmap.btmpBytesLen := by omega
  simp only [inodeBitmapSet, wp_bind, wp_state, hlen]
  refine wp_sync_inode hab hbits ?_
  rw [wp_sys_malloc]
  refine ⟨fun _ => ?_, fun hrefused => ?_⟩
  · refine (wp_of_done (inode_delete_run ?_ hn)).2 ?_
    · exact hab.table
    rw [wp_sys_free, wp_inode_close]
    refine ⟨fun hnone => ?_, fun inode' _ => ⟨fun _ => ⟨fun _ => ⟨rfl, rfl⟩, fun hnot => ?_⟩,
      fun _ => ⟨rfl, rfl⟩⟩⟩
    · exact absurd (hnone.symm.trans hinode) (by simp)
    · exact absurd hmem hnot
  · exact absurd ((hheap s.heap.requests 1024).symm.trans hrefused) (by simp)

/-! ## The whole release -/

/-- The blocks that a list of addresses stands for are counted once each. -/
theorem card_addresses (ha : Areas part) (hnd : lbas.Nodup)
    (htaken : ∀ lba ∈ lbas, Taken part lba) :
    ((Finset.range (8 * part.blockBitmap.btmpBytesLen)).filter
      fun i => blockAddr part.sb i ∈ lbas).card = lbas.length := by
  have himage : ((Finset.range (8 * part.blockBitmap.btmpBytesLen)).filter
      fun i => blockAddr part.sb i ∈ lbas).image (blockAddr part.sb) = lbas.toFinset := by
    ext lba
    simp only [Finset.mem_image, Finset.mem_filter, Finset.mem_range, List.mem_toFinset]
    constructor
    · intro ⟨i, ⟨_, hi⟩, heq⟩
      exact heq ▸ hi
    · intro hlba
      obtain ⟨i, hi, rfl, -⟩ := htaken lba hlba
      exact ⟨i, ⟨hi, hlba⟩, rfl⟩
  rw [← List.toFinset_card_of_nodup hnd, ← himage, Finset.card_image_of_injOn]
  intro i hi j hj heq
  simp only [Finset.coe_filter, Finset.mem_range] at hi hj
  exact block_addr_inj ha hi.1 hj.1 heq

/-- Giving back blocks that were in use makes as many free. -/
theorem Freed.free_eq (h : Freed s lbas last) (ha : Areas s.part) (hnd : lbas.Nodup)
    (htaken : ∀ lba ∈ lbas, Taken s.part lba) :
    last.part.blockBitmap.free = s.part.blockBitmap.free + lbas.length := by
  have hset : ∀ i < 8 * s.part.blockBitmap.btmpBytesLen, blockAddr s.part.sb i ∈ lbas →
      bitmapScanTest s.part.blockBitmap i = true := by
    intro i hi hlba
    obtain ⟨j, hj, heq, hbit, -⟩ := htaken _ hlba
    rwa [block_addr_inj ha hi hj heq]
  have hsplit : (Finset.range (8 * s.part.blockBitmap.btmpBytesLen)).filter
        (fun i => bitmapScanTest last.part.blockBitmap i = false) =
      (Finset.range (8 * s.part.blockBitmap.btmpBytesLen)).filter
          (fun i => bitmapScanTest s.part.blockBitmap i = false) ∪
        (Finset.range (8 * s.part.blockBitmap.btmpBytesLen)).filter
          fun i => blockAddr s.part.sb i ∈ lbas := by
    rw [← Finset.filter_or]
    refine Finset.filter_congr fun i hi => ?_
    rw [h.bits i (Finset.mem_range.1 hi)]
    by_cases hlba : blockAddr s.part.sb i ∈ lbas <;> simp [hlba]
  rw [BitMap.free, h.len, hsplit, Finset.card_union_of_disjoint, card_addresses ha hnd htaken]
  · rfl
  · refine Finset.disjoint_filter.2 fun i hi hclear hlba => ?_
    rw [hset i (Finset.mem_range.1 hi) hlba] at hclear
    exact absurd hclear (by simp)

/-- The record and the inode bitmap lie behind the block bitmap. -/
theorem drop_inode_no_disk {n x : Nat} (ha : Areas s.part) (hx : InBlockBits s.part.sb x) :
    (s.dropInodeNo n).disk x = s.disk x := by
  have harea := ha.blockArea
  have htable := ha.inodeArea
  unfold InBlockBits at hx
  calc (s.dropInodeNo n).disk x = ((s.clearInodeBit n).syncInodeBits (n / 4096)).disk x := by
        rw [Kernel.dropInodeNo_disk, Bytes.blit_outside (.inl ?_)]
        show x < 512 * s.part.sb.inodeTableLba.toNat + 76 * n
        omega
    _ = s.disk x := by
        refine Bytes.blit_outside (.inl ?_)
        show x < 512 * (s.part.sb.inodeBitmapLba.toNat + n / 4096)
        omega

theorem drop_inode_no_in_line {n : Nat} (ha : Areas s.part)
    (h : InLine s.disk s.part.sb.inodeBitmapLba s.part.inodeBitmap) :
    InLine (s.dropInodeNo n).disk s.part.sb.inodeBitmapLba (s.dropInodeNo n).part.inodeBitmap := by
  have hlen := ha.inodeLen
  have htable := ha.inodeArea
  refine (h.sync n false).congr fun k hk => ?_
  have hk' : k < s.part.inodeBitmap.btmpBytesLen := hk
  -- the record lies behind the bitmap
  rw [Kernel.dropInodeNo_disk, Bytes.blit_outside (.inl ?_)]
  · rfl
  · show 512 * s.part.sb.inodeBitmapLba.toNat + k < 512 * s.part.sb.inodeTableLba.toNat + 76 * n
    omega

/-- A block in use above the first block of the data area can be given back. -/
theorem Taken.releasable (h : Taken part lba) (ha : Areas part)
    (habove : part.sb.dataStartLba < lba) : Releasable part lba := by
  obtain ⟨i, hi, rfl, -⟩ := h
  have haddr := block_addr_toNat ha hi
  have hlt := UInt32.lt_iff_toNat_lt.1 habove
  exact ⟨i, by omega, hi, rfl⟩

/-- The two steps of `inode_release` that give back the blocks of an inode. -/
theorem release_owned_spec (ha : Areas s.part)
    (hlba : ∀ lba ∈ ownedBlocks s.disk inode, Releasable s.part lba) :
    wp never (when (inode.sector 12 ≠ 0) (releaseBlock (inode.sector 12))) s
      fun _ mid => wp never (releaseBlocks (blocksOf s.disk inode)
        (if inode.sector 12 ≠ 0 then 140 else 12) 0) mid
          fun _ last => Freed s (ownedBlocks s.disk inode) last := by
  have hblocks : ∀ k, 0 ≤ k → k < 0 + (if inode.sector 12 ≠ 0 then 140 else 12) →
      blocksOf s.disk inode k ≠ 0 → Releasable s.part (blocksOf s.disk inode k) := by
    intro k _ hlt hused
    refine hlba _ (List.mem_append_right _ (List.mem_filter.2 ⟨List.mem_map.2 ⟨k, ?_, rfl⟩, ?_⟩))
    · rw [List.mem_range'_1]
      exact ⟨Nat.zero_le _, hlt⟩
    · simpa using hused
  rw [wp_when]
  refine ⟨fun htable => ?_, fun htable => ?_⟩
  · have howned : ∀ lba, lba = inode.sector 12 → lba ∈ ownedBlocks s.disk inode := by
      intro lba hlba
      simp [ownedBlocks, htable, hlba]
    refine wp_mono (release_block_spec ha (hlba _ (howned _ rfl))) fun _ mid hmid => ?_
    refine wp_mono (release_blocks_spec _ 0 (hmid.areas ha) fun k hle hlt hused => ?_) ?_
    · exact hmid.releasable (hblocks k hle hlt hused)
    · intro _ last hlast
      rw [ownedBlocks, if_pos htable]
      exact hmid.append hlast
  · refine wp_mono (release_blocks_spec _ 0 ha hblocks) fun _ last hlast => ?_
    rw [ownedBlocks, if_neg htable]
    exact hlast

/-- The blocks were given back and the number was cleared. -/
theorem Freed.released {cur freed : Kernel} (h : ReleaseOk s n) (hcd : cur.disk = s.disk)
    (hcp : cur.part = s.part) (hfreed : Freed cur (ownedBlocks s.disk (inodeVersion s n)) freed)
    (hdisk : last.disk = (freed.dropInodeNo n.toNat).disk)
    (hpart : last.part = (freed.dropInodeNo n.toNat).part) : Released s n last := by
  have ha := h.areas
  have hfa := hfreed.areas (hcp.symm ▸ ha)
  have hsb : freed.part.sb = s.part.sb := hfreed.sb_eq.trans (by rw [hcp])
  have hbitmap : freed.part.inodeBitmap = s.part.inodeBitmap := by rw [hfreed.part_eq, hcp]
  have hbits := hfreed.bits
  have hline := hfreed.inLine
  have houtside := hfreed.outside
  have hlen := hfreed.len
  have hfree := hfreed.free_eq (hcp.symm ▸ ha) h.distinct (hcp.symm ▸ h.taken)
  rw [hcp] at hbits hline houtside hfree hlen
  rw [hcd] at hline houtside
  have hblocks : BitsCleared (blockAddr s.part.sb · ∈ ownedBlocks s.disk (inodeVersion s n))
      s.part.blockBitmap last.part.blockBitmap := by
    intro i hi
    rw [hpart]
    have hbit : bitmapScanTest (freed.dropInodeNo n.toNat).part.blockBitmap i = _ := hbits i hi
    exact ⟨fun hin => hbit.trans (if_pos hin), fun hnot => hbit.trans (if_neg hnot)⟩
  have hinodes : BitsCleared (· = n.toNat) s.part.inodeBitmap last.part.inodeBitmap := by
    intro i _
    have hbit := scan_test_bitmap_set s.part.inodeBitmap n.toNat i false
    rw [hpart, ← hbitmap] at *
    exact ⟨fun heq => hbit.trans (if_pos heq), fun hne => hbit.trans (if_neg hne)⟩
  refine ⟨hblocks, hinodes, fun ⟨hbline, hiline⟩ => ⟨hblocks.on_disk ?_ hbline ?_,
    hinodes.on_disk ?_ hiline ?_⟩, ?_, ?_⟩
  · rw [hpart]
    exact hlen
  · rw [hdisk, hpart]
    refine (hline hbline).congr fun k hk => drop_inode_no_disk hfa ?_
    have hblockLen := ha.blockLen
    rw [hsb]
    exact ⟨by omega, by omega⟩
  · rw [hpart, ← hbitmap]
    rfl
  · have hiline' : InLine freed.disk freed.part.sb.inodeBitmapLba freed.part.inodeBitmap := by
      rw [hsb, hbitmap]
      refine hiline.congr fun k hk => houtside _ fun hin => ?_
      have harea := ha.blockArea
      have hlt := hin.2
      omega
    rw [hdisk, hpart, ← hsb]
    exact drop_inode_no_in_line hfa hiline'
  · intro k hk
    rw [hdisk, Kernel.dropInodeNo_disk, hsb, Bytes.blit_inside (by omega) (by omega)]
  · rw [hpart]
    exact hfree

/-- `inode_release` with memory gives back the blocks and the number of an inode. -/
theorem inode_release_frees (h : ReleaseOk s n) (hheap : HeapOk s) :
    wp never (inodeRelease n) s fun _ last => Released s n last := by
  have ha := h.areas
  refine wp_seq (inode_open_spec (.inr ⟨hheap, ha.table, h.number⟩)) fun p cur hopen => ?_
  obtain ⟨cnt, hinode⟩ := hopen.version
  set inode : INode := { inodeVersion s n with iOpenCnts := cnt } with hi
  have hcur : cur.disk = s.disk ∧ cur.part = s.part ∧ cur.grant = s.grant := by
    rw [hopen.frame]
    exact ⟨rfl, rfl, rfl⟩
  obtain ⟨hdisk, hpart, hgrant⟩ := hcur
  have howned : ownedBlocks cur.disk inode = ownedBlocks s.disk (inodeVersion s n) := by
    rw [hdisk]
    rfl
  rw [wp_bind, wp_deref_inode, hinode]
  refine ⟨fun _ heq => ?_, fun hnone => absurd hnone (by simp)⟩
  obtain rfl := Option.some.inj heq
  rw [wp_bind, wp_assert]
  refine ⟨fun _ => ?_, fun hno => absurd h.iNo (of_decide_eq_false hno)⟩
  rw [wp_bind]
  refine wp_all_blocks_of ?_ fun htable hlarge => ?_
  · refine wp_seq (release_owned_spec (hpart.symm ▸ ha) ?_) fun _ mid hmid => ?_
    · intro lba hlba
      rw [howned] at hlba
      exact hpart.symm ▸ (h.taken lba hlba).releasable ha (h.above lba hlba)
    refine wp_seq hmid fun _ freed hfreed => ?_
    have hinodes : freed.inodes p = some inode ∧ p ∈ freed.openInodes ∧ HeapOk freed := by
      rw [hfreed.rest]
      exact ⟨hinode, hopen.mem, fun k size => (congrFun₂ hgrant k size).trans (hheap k size)⟩
    have hbits : n.toNat < 8 * freed.part.inodeBitmap.btmpBytesLen := by
      rw [hfreed.part_eq, hpart]
      exact h.inBitmap
    refine wp_mono (release_number_spec (hfreed.areas (hpart.symm ▸ ha)) hinodes.2.2 h.number
      hbits hinodes.1 hinodes.2.1) fun _ last ⟨hlast, hlastPart⟩ => ?_
    exact Freed.released h hdisk hpart (howned ▸ hfreed) hlast hlastPart
  · have hmem : inode.sector 12 ∈ ownedBlocks s.disk (inodeVersion s n) := by
      rw [← howned]
      simp [ownedBlocks, htable]
    exact absurd (h.taken _ hmem).in_range (by omega)

/-- `inode_release` frees exactly the file, if memory is available and the bitmaps on disk are in
line with those in memory. -/
theorem inode_release_exact {s : Kernel} {n : UInt32} (h : ReleaseOk s n) (hheap : HeapOk s)
    (hline : BitmapsInLine s) :
    ∃ last, inodeRelease n s = .done () last ∧ Released s n last ∧ ReleasedOnDisk s n last := by
  obtain ⟨_, last, hdone, hlast⟩ := wp_never_iff.1 (inode_release_frees h hheap)
  exact ⟨last, hdone, hlast, hlast.onDisk hline⟩

theorem release_ok_short_file (disk : Bytes) : ReleaseOk { fileKernel shortFile with disk } 1 := by
  have howned : ownedBlocks disk (inodeVersion { fileKernel shortFile with disk } 1) = [676] := rfl
  have hbits : 1 < 8 * filePartition.inodeBitmap.btmpBytesLen ∧
      bitmapScanTest filePartition.inodeBitmap 1 = true ∧
      bitmapScanTest filePartition.blockBitmap 1 = true := by decide
  refine ⟨(bits_partition_blocks_ok 0 (by decide)).areas, by decide, hbits.1,
    hbits.2.1, rfl, by simp [howned], ?_, ?_⟩
  · intro lba hlba
    rw [howned, List.mem_singleton] at hlba
    exact ⟨1, hbits.1, hlba, hbits.2.2, by subst hlba; decide⟩
  · intro lba hlba
    rw [howned, List.mem_singleton] at hlba
    rw [hlba]
    show filePartition.sb.dataStartLba < 676
    decide

/-- A kernel with a file of one block and the two bitmaps on disk. -/
def inLineKernel : Kernel :=
  { fileKernel shortFile with disk := fun x => if x = 512 * 65 ∨ x = 512 * 66 then 3 else 0 }

/-- A file of one block is released: its block and its number become free. -/
theorem inode_release_short_file : BitmapsInLine inLineKernel ∧
    ∃ last, inodeRelease 1 inLineKernel = .done () last ∧ Released inLineKernel 1 last ∧
      ReleasedOnDisk inLineKernel 1 last := by
  have hline : BitmapsInLine inLineKernel := by
    unfold BitmapsInLine InLine
    decide +kernel
  exact ⟨hline, inode_release_exact (release_ok_short_file _) (fun _ _ => rfl) hline⟩

/-- With empty copies of the bitmaps on disk, the release sets the bit of the root
directory there. -/
theorem inode_release_writes_stale_bit : ReleaseOk (fileKernel shortFile) 1 ∧
    HeapOk (fileKernel shortFile) ∧
    ∃ last, inodeRelease 1 (fileKernel shortFile) = .done () last ∧
      ¬ReleasedOnDisk (fileKernel shortFile) 1 last := by
  refine ⟨release_ok_short_file (fileKernel shortFile).disk, fun _ _ => rfl, _, rfl, ?_⟩
  rintro ⟨hblocks, -⟩
  exact absurd ((hblocks 0 (by decide)).2 (by decide +kernel)) (by decide +kernel)

end LosKernel
