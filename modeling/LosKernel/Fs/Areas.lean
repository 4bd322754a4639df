import LosKernel.Fs.InodeTable

/-!
# The areas of a partition

A mounted partition holds the block bitmap, the inode bitmap, the inode table and the data area,
in this order. The functions on directories and files write single sectors of them.
-/

namespace LosKernel

open Prog

variable {part : Partition} {i : Nat} {ok : Stop → Prop} {s : Kernel} {Q : Unit → Kernel → Prop}
  {lba : UInt32} {value : Bool} {p : Ptr} {inode : INode} {buf : Bytes}

/-- The areas of a mounted partition do not overlap and can be addressed. -/
structure Areas (part : Partition) : Prop where
  table : TableLaidOut part
  entrySize : part.sb.dirEntrySize = 24
  bootSector : 0 < part.sb.blockBitmapLba.toNat
  blockLen : part.blockBitmap.btmpBytesLen = 512 * part.sb.blockBitmapSects.toNat
  blockArea : part.sb.blockBitmapLba.toNat + part.sb.blockBitmapSects.toNat ≤
    part.sb.inodeBitmapLba.toNat
  inodeLen : part.inodeBitmap.btmpBytesLen = 512 * part.sb.inodeBitmapSects.toNat
  inodeArea : part.sb.inodeBitmapLba.toNat + part.sb.inodeBitmapSects.toNat ≤
    part.sb.inodeTableLba.toNat
  tableArea : part.sb.inodeTableLba.toNat + 608 ≤ part.sb.dataStartLba.toNat
  dataArea : part.sb.dataStartLba.toNat + 8 * part.blockBitmap.btmpBytesLen < 2 ^ 32

/-- An address that a block of a file or directory may have. Address 0 stands for no block; what is
written there hits no area of the partition. -/
def DataAddr (sb : SuperBlock) (lba : UInt32) : Prop :=
  lba = 0 ∨ sb.dataStartLba.toNat ≤ lba.toNat

/-- All block addresses of an inode may be written to. -/
def Addressed (sb : SuperBlock) (inode : INode) : Prop := ∀ k, DataAddr sb (inode.sector k)

/-! ## Changes of the state -/

namespace Kernel

/-- Sector `lba` is written. -/
def write (s : Kernel) (lba : UInt32) (buf : Bytes) : Kernel :=
  { s with disk := Bytes.blit s.disk (512 * lba.toNat) buf 512 }

/-- A bit of the block bitmap in memory gets a value. -/
def setBlockBit (s : Kernel) (i : Nat) (value : Bool) : Kernel :=
  { s with part := { s.part with blockBitmap := bitmapSet s.part.blockBitmap i value } }

/-- A bit of the inode bitmap in memory gets a value. -/
def setInodeBit (s : Kernel) (n : Nat) (value : Bool) : Kernel :=
  { s with part := { s.part with inodeBitmap := bitmapSet s.part.inodeBitmap n value } }

/-- Sector `j` of the block bitmap is written to the disk. -/
def syncBlockBits (s : Kernel) (j : Nat) : Kernel :=
  { s with
    disk := Bytes.blit s.disk (512 * (s.part.sb.blockBitmapLba.toNat + j))
      (Bytes.shift s.part.blockBitmap.bits (512 * j)) 512 }

/-- Sector `j` of the inode bitmap is written to the disk. -/
def syncInodeBits (s : Kernel) (j : Nat) : Kernel :=
  { s with
    disk := Bytes.blit s.disk (512 * (s.part.sb.inodeBitmapLba.toNat + j))
      (Bytes.shift s.part.inodeBitmap.bits (512 * j)) 512 }

/-- A block is taken: its bit is set, in memory and on the disk. -/
def takeBlock (s : Kernel) (i : Nat) : Kernel := (s.setBlockBit i true).syncBlockBits (i / 4096)

/-- The inode at `p` is replaced. -/
def setInode (s : Kernel) (p : Ptr) (inode : INode) : Kernel :=
  { s with inodes := Function.update s.inodes p (some inode) }

section

variable (s : Kernel) (lba : UInt32) (buf : Bytes) (i : Nat) (value : Bool) (p : Ptr)
  (inode : INode)

@[simp] theorem write_part : (s.write lba buf).part = s.part := rfl

@[simp] theorem write_inodes : (s.write lba buf).inodes = s.inodes := rfl

@[simp] theorem write_disk :
    (s.write lba buf).disk = Bytes.blit s.disk (512 * lba.toNat) buf 512 := rfl

@[simp] theorem setBlockBit_sb : (s.setBlockBit i value).part.sb = s.part.sb := rfl

@[simp] theorem setBlockBit_bits :
    (s.setBlockBit i value).part.blockBitmap = bitmapSet s.part.blockBitmap i value := rfl

@[simp] theorem setBlockBit_inodes : (s.setBlockBit i value).inodes = s.inodes := rfl

@[simp] theorem setBlockBit_disk : (s.setBlockBit i value).disk = s.disk := rfl

@[simp] theorem takeBlock_sb : (s.takeBlock i).part.sb = s.part.sb := rfl

@[simp] theorem takeBlock_bits :
    (s.takeBlock i).part.blockBitmap = bitmapSet s.part.blockBitmap i true := rfl

@[simp] theorem takeBlock_inodes : (s.takeBlock i).inodes = s.inodes := rfl

@[simp] theorem setInode_part : (s.setInode p inode).part = s.part := rfl

@[simp] theorem setInode_disk : (s.setInode p inode).disk = s.disk := rfl

@[simp] theorem setInode_same : (s.setInode p inode).inodes p = some inode :=
  Function.update_self ..

variable {p} in
theorem setInode_of_ne {q : Ptr} (h : q ≠ p) : (s.setInode p inode).inodes q = s.inodes q :=
  Function.update_of_ne h ..

@[simp] theorem setInode_setInode (inode' : INode) :
    (s.setInode p inode).setInode p inode' = s.setInode p inode' := by
  simp [setInode]

@[simp] theorem write_write (buf' : Bytes) :
    (s.write lba buf).write lba buf' = s.write lba buf' := by
  have hdisk : Bytes.blit (Bytes.blit s.disk (512 * lba.toNat) buf 512) (512 * lba.toNat) buf' 512 =
      Bytes.blit s.disk (512 * lba.toNat) buf' 512 := by
    funext j
    by_cases hj : 512 * lba.toNat ≤ j ∧ j < 512 * lba.toNat + 512
    · rw [Bytes.blit_inside hj.1 hj.2, Bytes.blit_inside hj.1 hj.2]
    · rw [Bytes.blit_outside (by omega), Bytes.blit_outside (by omega),
        Bytes.blit_outside (by omega)]
  simp [write, hdisk]

end

end Kernel

/-! ## Addresses of blocks -/

/-- The address of block `i` of the data area. -/
def blockAddr (sb : SuperBlock) (i : Nat) : UInt32 := sb.dataStartLba + UInt32.ofNat i

theorem block_addr_toNat (h : Areas part) (hi : i < 8 * part.blockBitmap.btmpBytesLen) :
    (blockAddr part.sb i).toNat = part.sb.dataStartLba.toNat + i := by
  have := h.dataArea
  simp only [blockAddr, UInt32.toNat_add, UInt32.toNat_ofNat']
  omega

theorem block_addr_sub (sb : SuperBlock) (i : Nat) :
    blockAddr sb i - sb.dataStartLba = UInt32.ofNat i := by
  unfold blockAddr
  grind

theorem block_addr_data (h : Areas part) (hi : i < 8 * part.blockBitmap.btmpBytesLen) :
    DataAddr part.sb (blockAddr part.sb i) :=
  Or.inr (by rw [block_addr_toNat h hi]; omega)

theorem block_addr_ne_zero (h : Areas part) (hi : i < 8 * part.blockBitmap.btmpBytesLen) :
    blockAddr part.sb i ≠ 0 := by
  intro hzero
  have h1 := block_addr_toNat h hi
  have h2 := h.tableArea
  rw [hzero] at h1
  simp at h1
  omega

theorem bitmap_index_ne (h : Areas part) (hi : i < 8 * part.blockBitmap.btmpBytesLen) :
    UInt32.ofNat i ≠ 0xffffffff := by
  intro heq
  have h1 := congrArg UInt32.toNat heq
  have h2 := h.dataArea
  simp only [UInt32.toNat_ofNat', UInt32.reduceToNat] at h1
  omega

/-! ## Running the bitmap operations -/

theorem Areas.of_bits (h : Areas part) {blocks inodes : BitMap}
    (hblocks : blocks.btmpBytesLen = part.blockBitmap.btmpBytesLen)
    (hinodes : inodes.btmpBytesLen = part.inodeBitmap.btmpBytesLen) :
    Areas { part with blockBitmap := blocks, inodeBitmap := inodes } :=
  ⟨⟨h.table.inPart, h.table.noWrap, h.table.inRange⟩, h.entrySize, h.bootSector,
    hblocks.trans h.blockLen, h.blockArea, hinodes.trans h.inodeLen, h.inodeArea, h.tableArea,
    by rw [hblocks]; exact h.dataArea⟩

theorem Areas.setBlockBit (h : Areas s.part) (i : Nat) (value : Bool) :
    Areas (s.setBlockBit i value).part := h.of_bits rfl rfl

theorem bitmap_index_toNat (h : Areas s.part) (hi : i < 8 * s.part.blockBitmap.btmpBytesLen) :
    (UInt32.ofNat i).toNat = i := by
  have := h.dataArea
  simp only [UInt32.toNat_ofNat']
  omega

/-- `block_bitmap_alloc` takes the first free block. -/
theorem wp_alloc_block {Q : Option UInt32 → Kernel → Prop} : wp ok blockBitmapAlloc s Q ↔
      (bitmapScan s.part.blockBitmap 1 = none → Q none s) ∧
      ∀ i, bitmapScan s.part.blockBitmap 1 = some i →
        Q (some (blockAddr s.part.sb i)) (s.setBlockBit i true) := wp_block_bitmap_alloc

theorem wp_set_inode :
    wp ok (storeInode p inode) s Q ↔ Q () (s.setInode p inode) := Iff.rfl

/-- A bit of the block bitmap is set or cleared. -/
theorem wp_set_block (h : Areas s.part) (hi : i < 8 * s.part.blockBitmap.btmpBytesLen)
    (hQ : Q () (s.setBlockBit i value)) :
    wp ok (blockBitmapSet (UInt32.ofNat i) value) s Q := by
  have hlen : i / 8 < s.part.blockBitmap.btmpBytesLen := by omega
  simp only [blockBitmapSet, wp_bind, wp_state, bitmap_index_toNat h hi, hlen]
  exact hQ

/-- A bit of the inode bitmap is set or cleared. -/
theorem wp_set_inode_bit (hi : i < 8 * s.part.inodeBitmap.btmpBytesLen)
    (hlen : 8 * s.part.inodeBitmap.btmpBytesLen ≤ 2 ^ 32) (hQ : Q () (s.setInodeBit i value)) :
    wp ok (inodeBitmapSet (UInt32.ofNat i) value) s Q := by
  have hidx : (UInt32.ofNat i).toNat = i := by
    rw [UInt32.toNat_ofNat']
    omega
  have hbyte : i / 8 < s.part.inodeBitmap.btmpBytesLen := by omega
  simp only [inodeBitmapSet, wp_bind, wp_state, hidx, hbyte]
  exact hQ

/-- The sector of a bitmap that holds bit `n`. -/
theorem bitmap_sector {n : UInt32} (h : lba.toNat + n.toNat / 4096 ≤ maxLba) :
    (lba + n / 4096).toNat = lba.toNat + n.toNat / 4096 ∧
      sectorsInRange (lba + n / 4096) 1 = true := by
  have hoff : (n / 4096).toNat = n.toNat / 4096 := UInt32.toNat_div ..
  have hlba : (lba + n / 4096).toNat = lba.toNat + n.toNat / 4096 := by
    rw [UInt32.toNat_add]
    unfold maxLba at h
    omega
  exact ⟨hlba, by rwa [sectorsInRange_one, decide_eq_true_eq, hlba]⟩

/-- `bitmap_sync` for a block writes the sector of the bitmap that holds its bit. -/
theorem wp_sync_block (h : Areas s.part) (hi : i < 8 * s.part.blockBitmap.btmpBytesLen)
    (hQ : Q () (s.syncBlockBits (i / 4096))) :
    wp ok (bitmapSync (UInt32.ofNat i) .block) s Q := by
  have h2 := h.blockLen
  have h3 := h.blockArea
  have h4 := h.inodeArea
  have h5 := h.table.inRange
  have hidx := bitmap_index_toNat h hi
  obtain ⟨hlba, hrange⟩ := bitmap_sector (n := UInt32.ofNat i)
    (show s.part.sb.blockBitmapLba.toNat + _ ≤ maxLba by omega)
  simp only [bitmapSync, wp_bind, wp_state, wp_ide_write, hrange, hlba, UInt32.toNat_div, hidx,
    of_true]
  exact hQ

/-- `bitmap_sync` for an inode writes the sector of the bitmap that holds its bit. -/
theorem wp_sync_inode {n : UInt32} (h : Areas s.part)
    (hn : n.toNat < 8 * s.part.inodeBitmap.btmpBytesLen)
    (hQ : Q () (s.syncInodeBits (n.toNat / 4096))) :
    wp ok (bitmapSync n .inode) s Q := by
  have h1 := h.inodeLen
  have h4 := h.inodeArea
  have h5 := h.table.inRange
  obtain ⟨hlba, hrange⟩ := bitmap_sector (n := n)
    (show s.part.sb.inodeBitmapLba.toNat + _ ≤ maxLba by omega)
  simp only [bitmapSync, wp_bind, wp_state, wp_ide_write, hrange, hlba, of_true]
  exact hQ

/-! ## Transfers of one sector -/

/-- One sector is read. -/
theorem wp_read_sector {Q : Bytes → Kernel → Prop} (hok : (∀ r, ok r) ∨ lba.toNat ≤ maxLba)
    (hQ : Q (sectorAt s.disk lba.toNat) s) : wp ok (ideRead lba 1) s Q := by
  rw [wp_ide_read, sectorsInRange_one]
  refine ⟨fun _ => hQ, fun hrange => ?_⟩
  exact hok.elim (fun h => h _) fun h => absurd h (by simpa using hrange)

/-- One sector is written. -/
theorem wp_write_sector (hok : (∀ r, ok r) ∨ lba.toNat ≤ maxLba) (hQ : Q () (s.write lba buf)) :
    wp ok (ideWrite lba buf 1) s Q := by
  rw [wp_ide_write, sectorsInRange_one]
  refine ⟨fun _ => hQ, fun hrange => ?_⟩
  exact hok.elim (fun h => h _) fun h => absurd h (by simpa using hrange)

end LosKernel
