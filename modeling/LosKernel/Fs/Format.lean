import LosKernel.Fs.Calls

/-!
# Formatting and mounting a partition

After `partition_format`, `mount_partition` and `filesys_init` of `fs/fs.c`. A formatted partition
holds, in this order, the boot sector, the super block, the block bitmap, the inode bitmap, the
inode table and the data area, whose first block belongs to the root directory.
-/

namespace LosKernel

open Bytes (word)

/-- `DIV_ROUND_UP`. -/
def divRoundUp (x step : UInt32) : UInt32 := (x + step - 1) / step

/-- The words of a `SuperBlock`. -/
def SuperBlock.toWords (sb : SuperBlock) (k : Nat) : UInt32 :=
  [sb.magic, sb.secCnt, sb.inodeCnt, sb.partLbaBase, sb.blockBitmapLba, sb.blockBitmapSects,
    sb.inodeBitmapLba, sb.inodeBitmapSects, sb.inodeTableLba, sb.inodeTableSects, sb.dataStartLba,
    sb.rootInodeNo, sb.dirEntrySize].getD k 0

/-- The `SuperBlock` stored in a sector. -/
def SuperBlock.ofBytes (b : Bytes) : SuperBlock where
  magic := word b 0
  secCnt := word b 4
  inodeCnt := word b 8
  partLbaBase := word b 12
  blockBitmapLba := word b 16
  blockBitmapSects := word b 20
  inodeBitmapLba := word b 24
  inodeBitmapSects := word b 28
  inodeTableLba := word b 32
  inodeTableSects := word b 36
  dataStartLba := word b 40
  rootInodeNo := word b 44
  dirEntrySize := word b 48

/-- `inode_bitmap_sects`. -/
def inodeBitmapSects : UInt32 := divRoundUp 4096 4096

/-- `inode_table_sects`. -/
def inodeTableSects : UInt32 := divRoundUp (76 * 4096) 512

/-- `free_sects`: the sectors left after the boot sector, the super block, the inode bitmap and the
inode table. -/
def freeSects (secCnt : UInt32) : UInt32 := secCnt - (1 + 1 + inodeBitmapSects + inodeTableSects)

/-- `block_bitmap_bit_len`: the number of blocks the bitmap is meant for. -/
def blockBitmapBitLen (secCnt : UInt32) : UInt32 :=
  freeSects secCnt - divRoundUp (freeSects secCnt) 4096

/-- The final `block_bitmap_sects`. -/
def blockBitmapSects (secCnt : UInt32) : UInt32 := divRoundUp (blockBitmapBitLen secCnt) 4096

/-- The super block `partition_format` writes. -/
def formatSuperBlock (startLba secCnt : UInt32) : SuperBlock :=
  let blockBitmapLba := startLba + 2
  let inodeBitmapLba := blockBitmapLba + blockBitmapSects secCnt
  let inodeTableLba := inodeBitmapLba + inodeBitmapSects
  { magic := 0x19590318
    secCnt := secCnt
    inodeCnt := 4096
    partLbaBase := startLba
    blockBitmapLba := blockBitmapLba
    blockBitmapSects := blockBitmapSects secCnt
    inodeBitmapLba := inodeBitmapLba
    inodeBitmapSects := inodeBitmapSects
    inodeTableLba := inodeTableLba
    inodeTableSects := inodeTableSects
    dataStartLba := inodeTableLba + inodeTableSects
    rootInodeNo := 0
    dirEntrySize := 24 }

/-- `buf_size`. -/
def formatBufSize (sb : SuperBlock) : UInt32 :=
  let bufSize := if sb.inodeBitmapSects ≤ sb.blockBitmapSects then sb.blockBitmapSects
    else sb.inodeBitmapSects
  (if sb.inodeTableSects ≤ bufSize then bufSize else sb.inodeTableSects) * 512

/-- The loop of `partition_format` that clears the bits `0, …, last` of a byte. -/
def clearBits (byte : UInt8) : Nat → UInt8
  | 0 => setBit byte 0 false
  | last + 1 => setBit (clearBits byte last) (last + 1) false

/-- The block bitmap `partition_format` builds: bit 0 is taken by the root directory, and the bits
from the last byte in use to the end of its sector are set and then cleared again in that byte. -/
def formatBlockBitmap (bitLen : Nat) : Bytes :=
  let lastByte := bitLen / 8
  let marked := Bytes.blit (Function.update (fun _ => 0) 0 1) lastByte (fun _ => 0xff)
    (512 - lastByte % 512)
  Function.update marked lastByte (clearBits (marked lastByte) (bitLen % 8))

/-- `partition_format`. -/
def partitionFormat (startLba secCnt : UInt32) : Call Unit := do
  let sb := formatSuperBlock startLba secCnt
  ideWrite (startLba + 1) (Bytes.words sb.toWords) 1
  let bitLen := (blockBitmapBitLen secCnt).toNat
  let bufSize := (formatBufSize sb).toNat
  let buf ← nonNull (← sysMalloc bufSize)
  access (bitLen / 8 + (512 - bitLen / 8 % 512) ≤ bufSize)
  ideWrite sb.blockBitmapLba (formatBlockBitmap bitLen) sb.blockBitmapSects.toNat
  ideWrite sb.inodeBitmapLba (Function.update (fun _ => 0) 0 1) sb.inodeBitmapSects.toNat
  let rootInode := { (inodeInit 0).setSector 0 sb.dataStartLba with iSize := sb.dirEntrySize * 2 }
  ideWrite sb.inodeTableLba (Bytes.blit (fun _ => 0) 0 rootInode.bytes inodeSize)
    sb.inodeTableSects.toNat
  ideWrite sb.dataStartLba (dotBlock 0 0) 1
  sysFree buf

/-- `mount_partition`, for the partition that is to become `cur_part`. -/
def mountPartition (startLba secCnt : UInt32) : Call Unit := do
  let sbBuf ← sysMalloc 512
  assert (← sysMalloc 512).isSome
  -- `memset` asserts that its destination is not NULL
  assert sbBuf.isSome
  let sb := SuperBlock.ofBytes (← ideRead (startLba + 1) 1)
  assert (← sysMalloc (sb.blockBitmapSects * 512).toNat).isSome
  let blockBits ← ideRead sb.blockBitmapLba sb.blockBitmapSects.toNat
  assert (← sysMalloc (sb.inodeBitmapSects * 512).toNat).isSome
  let inodeBits ← ideRead sb.inodeBitmapLba sb.inodeBitmapSects.toNat
  Prog.update fun s =>
    { s with
      part :=
        { startLba := startLba
          secCnt := secCnt
          sb := sb
          blockBitmap := ⟨(sb.blockBitmapSects * 512).toNat, blockBits⟩
          inodeBitmap := ⟨(sb.inodeBitmapSects * 512).toNat, inodeBits⟩ }
      openInodes := [] }

/-- The last steps of `filesys_init` for the partition in use: mount it, open its root directory and
clear `file_table`. -/
def mountRoot (startLba secCnt : UInt32) : Call Unit := do
  mountPartition startLba secCnt
  openRootDir
  Prog.update fun s =>
    { s with fileTable := fun idx => { s.fileTable idx with fdInode := none } }

/-- A kernel with a freshly formatted and mounted partition of 5000 sectors. -/
def Kernel.booted : Kernel :=
  match (do partitionFormat 63 5000; mountRoot 63 5000 : Call Unit) Kernel.start with
  | .done _ s => s
  | .stop _ => Kernel.start

theorem booted_run : (do partitionFormat 63 5000; mountRoot 63 5000 : Call Unit) Kernel.start =
      .done () Kernel.booted := rfl

end LosKernel
