import LosKernel.Device.Ide

/-!
# Inodes

After `fs/inode.c`, with the bitmap functions of `fs/file.c`. An inode takes 76 bytes of the inode
table, which may straddle two sectors, and is kept in memory while it is open. Of the buffers for
disk transfers only the sizes are parameters; a transfer into one that is too small is a bad
access.
-/

namespace LosKernel

open Prog

variable {ok : Stop → Prop} {s : Kernel} {Q : Option UInt32 → Kernel → Prop}

/-! ## Bitmaps of the partition -/

/-- `bitmap_type`. -/
inductive BitmapType where
  | inode
  | block
  deriving DecidableEq, Repr

/-- `inode_bitmap_alloc`: take the first free inode. -/
def inodeBitmapAlloc : Call (Option UInt32) := do
  let s ← state
  match bitmapScan s.part.inodeBitmap 1 with
  | none => pure none
  | some bitIdx =>
    update fun s =>
      { s with part := { s.part with inodeBitmap := bitmapSet s.part.inodeBitmap bitIdx true } }
    pure (some (UInt32.ofNat bitIdx))

/-- `block_bitmap_alloc`: take the first free block and return its sector address. -/
def blockBitmapAlloc : Call (Option UInt32) := do
  let s ← state
  match bitmapScan s.part.blockBitmap 1 with
  | none => pure none
  | some bitIdx =>
    update fun s =>
      { s with part := { s.part with blockBitmap := bitmapSet s.part.blockBitmap bitIdx true } }
    pure (some (s.part.sb.dataStartLba + UInt32.ofNat bitIdx))

/-- `bitmap_set` on the inode bitmap of the partition. -/
def inodeBitmapSet (idx : UInt32) (value : Bool) : Call Unit := do
  let s ← state
  access (idx.toNat / 8 < s.part.inodeBitmap.btmpBytesLen)
  update fun s =>
    { s with part := { s.part with inodeBitmap := bitmapSet s.part.inodeBitmap idx.toNat value } }

/-- `bitmap_set` on the block bitmap of the partition. -/
def blockBitmapSet (idx : UInt32) (value : Bool) : Call Unit := do
  let s ← state
  access (idx.toNat / 8 < s.part.blockBitmap.btmpBytesLen)
  update fun s =>
    { s with part := { s.part with blockBitmap := bitmapSet s.part.blockBitmap idx.toNat value } }

/-- `bitmap_sync`: write the sector of the bitmap that holds bit `bitIdx`. -/
def bitmapSync (bitIdx : UInt32) (btmp : BitmapType) : Call Unit := do
  let s ← state
  let offSec := bitIdx / 4096
  match btmp with
  | .inode =>
    ideWrite (s.part.sb.inodeBitmapLba + offSec)
      (Bytes.shift s.part.inodeBitmap.bits (512 * offSec.toNat)) 1
  | .block =>
    ideWrite (s.part.sb.blockBitmapLba + offSec)
      (Bytes.shift s.part.blockBitmap.bits (512 * offSec.toNat)) 1

/-! ## The inode table -/

/-- `inode_position`. -/
structure INodePosition where
  twoSec : Bool
  secLba : UInt32
  offSize : Nat

/-- The position `inode_locate` computes. -/
def inodePosition (sb : SuperBlock) (inodeNo : UInt32) : INodePosition :=
  let offSize := inodeNo.toNat * inodeSize
  let offSizeInSec := offSize % 512
  { twoSec := 512 - offSizeInSec < inodeSize
    secLba := sb.inodeTableLba + UInt32.ofNat (offSize / 512)
    offSize := offSizeInSec }

/-- `inode_locate`. -/
def inodeLocate (inodeNo : UInt32) : Call INodePosition := do
  assert (inodeNo < 4096)
  let s ← state
  pure (inodePosition s.part.sb inodeNo)

/-- How many sectors are transferred for an inode. -/
def INodePosition.secCnt (pos : INodePosition) : Nat := if pos.twoSec then 2 else 1

/-- `inode_sync`: write an inode to the inode table. The local `inode_no` of the source has eight
bits. -/
def inodeSync (inode : INode) (ioBufSize : Nat) : Call Unit := do
  let inodeNo := inode.iNo % 256
  let pos ← inodeLocate inodeNo
  let s ← state
  assert (pos.secLba ≤ s.part.startLba + s.part.secCnt)
  let pureInode := { inode with iOpenCnts := 0, writeDeny := false }
  access (512 * pos.secCnt ≤ ioBufSize)
  let inodeBuf ← ideRead pos.secLba pos.secCnt
  ideWrite pos.secLba (Bytes.blit inodeBuf pos.offSize pureInode.bytes inodeSize) pos.secCnt

/-- `malloc_kernal_inode`. -/
def mallocKernalInode : Call (Option Ptr) := sysMalloc inodeSize

/-- The search of `inode_open` through `open_inodes`. -/
def findOpenInode (s : Kernel) (inodeNo : UInt32) : Option Ptr :=
  s.openInodes.find? fun p => (s.inodes p).any fun inode => inode.iNo == inodeNo

/-- `inode_open`. -/
def inodeOpen (inodeNo : UInt32) : Call Ptr := do
  let s ← state
  match findOpenInode s inodeNo with
  | some p =>
    let inode ← derefInode p
    storeInode p { inode with iOpenCnts := inode.iOpenCnts + 1 }
    pure p
  | none =>
    let pos ← inodeLocate inodeNo
    let inodeFound ← mallocKernalInode
    let inodeBuf ← nonNull (← sysMalloc (512 * pos.secCnt))
    let b ← ideRead pos.secLba pos.secCnt
    -- `memcpy` asserts that its destination is not NULL
    assert inodeFound.isSome
    let p ← nonNull inodeFound
    storeInode p { INode.ofBytes b pos.offSize with iOpenCnts := 1 }
    update fun s => { s with openInodes := p :: s.openInodes }
    sysFree inodeBuf
    pure p

/-- `inode_close`. The decrement of the 32-bit counter wraps at 0. -/
def inodeClose (p : Ptr) : Call Unit := do
  let inode ← derefInode p
  if inode.iOpenCnts = 1 then
    let s ← state
    access (p ∈ s.openInodes)
    update fun s =>
      { s with
        openInodes := s.openInodes.erase p
        inodes := Function.update s.inodes p none }
    sysFree p
  else
    storeInode p { inode with
      iOpenCnts := if inode.iOpenCnts = 0 then 2 ^ 32 - 1 else inode.iOpenCnts - 1 }

/-- `inode_init`. -/
def inodeInit (inodeNo : UInt32) : INode where
  iNo := inodeNo
  iSize := 0
  iOpenCnts := 0
  writeDeny := false
  iSectors := fun _ => 0

/-- `inode_delete`: clear an inode in the inode table. -/
def inodeDelete (inodeNo : UInt32) (ioBufSize : Nat) : Call Unit := do
  let pos ← inodeLocate inodeNo
  let s ← state
  assert (pos.secLba ≤ s.part.startLba + s.part.secCnt)
  access (512 * pos.secCnt ≤ ioBufSize)
  let inodeBuf ← ideRead pos.secLba pos.secCnt
  ideWrite pos.secLba (Bytes.blit inodeBuf pos.offSize (fun _ => 0) inodeSize) pos.secCnt

/-- The array `all_blocks` that `search_dir_entry`, `delete_dir_entry`, `dir_read`,
`get_child_dir_name` and `inode_release` fill: the 12 direct blocks and, when the inode has an
indirect table, its 128 entries. -/
def allBlocksOf (inode : INode) : Call (Nat → UInt32) := do
  if inode.sector 12 ≠ 0 then
    let table ← ideReadWords (inode.sector 12)
    pure fun k => if k < 12 then inode.sector k else if k < 140 then table (k - 12) else 0
  else pure fun k => if k < 12 then inode.sector k else 0

/-- The recovery of one block in `inode_release`. -/
def releaseBlock (lba : UInt32) : Call Unit := do
  let s ← state
  let blockBitmapIdx := lba - s.part.sb.dataStartLba
  assert (0 < blockBitmapIdx)
  blockBitmapSet blockBitmapIdx false
  bitmapSync blockBitmapIdx .block

/-- The loop of `inode_release` over `count` entries of `all_blocks` from `blockIdx` on. -/
def releaseBlocks (allBlocks : Nat → UInt32) : Nat → Nat → Call Unit
  | 0, _ => pure ()
  | count + 1, blockIdx => do
    when (allBlocks blockIdx ≠ 0) (releaseBlock (allBlocks blockIdx))
    releaseBlocks allBlocks count (blockIdx + 1)

/-- `inode_release`: free the blocks of an inode and the inode. -/
def inodeRelease (inodeNo : UInt32) : Call Unit := do
  let inodeToDel ← inodeOpen inodeNo
  let inode ← derefInode inodeToDel
  assert (inode.iNo = inodeNo)
  let allBlocks ← allBlocksOf inode
  let blockCnt := if inode.sector 12 ≠ 0 then 140 else 12
  when (inode.sector 12 ≠ 0) (releaseBlock (inode.sector 12))
  releaseBlocks allBlocks blockCnt 0
  inodeBitmapSet inodeNo false
  bitmapSync inodeNo .inode
  let ioBuf ← nonNull (← sysMalloc 1024)
  inodeDelete inodeNo 1024
  sysFree ioBuf
  inodeClose inodeToDel

/-! ## Running the bitmap operations -/

theorem wp_block_bitmap_alloc : wp ok blockBitmapAlloc s Q ↔
      (bitmapScan s.part.blockBitmap 1 = none → Q none s) ∧
      ∀ i, bitmapScan s.part.blockBitmap 1 = some i →
        Q (some (s.part.sb.dataStartLba + UInt32.ofNat i))
          { s with part :=
            { s.part with blockBitmap := bitmapSet s.part.blockBitmap i true } } := by
  unfold blockBitmapAlloc
  simp only [wp_bind, wp_state]
  cases bitmapScan s.part.blockBitmap 1 <;> simp

theorem wp_inode_bitmap_alloc : wp ok inodeBitmapAlloc s Q ↔
      (bitmapScan s.part.inodeBitmap 1 = none → Q none s) ∧
      ∀ i, bitmapScan s.part.inodeBitmap 1 = some i →
        Q (some (UInt32.ofNat i))
          { s with part :=
            { s.part with inodeBitmap := bitmapSet s.part.inodeBitmap i true } } := by
  unfold inodeBitmapAlloc
  simp only [wp_bind, wp_state]
  cases bitmapScan s.part.inodeBitmap 1 <;> simp

/-! ## The blocks of an inode -/

/-- The blocks of an inode, as `allBlocksOf` collects them. -/
def blocksOf (disk : Bytes) (inode : INode) (k : Nat) : UInt32 :=
  if k < 12 then inode.sector k
  else if inode.sector 12 ≠ 0 ∧ k < 140 then tableAt disk (inode.sector 12).toNat (k - 12)
  else 0

/-- The blocks of an inode do not depend on its count of handles. -/
@[simp] theorem blocks_of_cnt (disk : Bytes) (inode : INode) (cnt : Nat) :
    blocksOf disk { inode with iOpenCnts := cnt } = blocksOf disk inode := rfl

theorem wp_all_blocks_of {inode : INode} {Q : (Nat → UInt32) → Kernel → Prop}
    (h : Q (blocksOf s.disk inode) s)
    (hstop : inode.sector 12 ≠ 0 → maxLba < (inode.sector 12).toNat → ok .assertFailed) :
    wp ok (allBlocksOf inode) s Q := by
  unfold allBlocksOf
  by_cases htable : inode.sector 12 ≠ 0
  · rw [if_pos htable]
    simp only [wp_bind, wp_ide_read_words]
    refine ⟨fun _ => ?_, hstop htable⟩
    have hblocks : (fun k => if k < 12 then inode.sector k
        else if k < 140 then tableAt s.disk (inode.sector 12).toNat (k - 12) else 0) =
        blocksOf s.disk inode := by
      funext k
      simp [blocksOf, htable]
    rw [hblocks]
    exact h
  · rw [if_neg htable]
    have hblocks : (fun k => if k < 12 then inode.sector k else 0) = blocksOf s.disk inode := by
      funext k
      simp [blocksOf, htable]
    rw [hblocks]
    exact h

end LosKernel
