import LosKernel.Fs.Inode

/-!
# Directories

After `fs/dir.c`. A directory is a sequence of 24-byte entries in the blocks of its inode, 21 to a
block; an entry whose type is `FT_UNKNOWN` is free. The functions that walk the blocks are
recursions on the number of blocks left.
-/

namespace LosKernel

open Prog

/-- `&root_dir`. -/
def rootDir : Ptr := 0

/-- `open_root_dir`. -/
def openRootDir : Call Unit := do
  let s ← state
  let inode ← inodeOpen s.part.sb.rootInodeNo
  update fun s => { s with dirs := (rootDir, ⟨inode, 0⟩) :: s.dirs }

/-- `sizeof(Dir)`. -/
def dirSize : Nat := 520

/-- `dir_open`. -/
def dirOpen (inodeNo : UInt32) : Call Ptr := do
  let pdir ← sysMalloc dirSize
  let inode ← inodeOpen inodeNo
  let pdir ← nonNull pdir
  update fun s => { s with dirs := (pdir, ⟨inode, 0⟩) :: s.dirs }
  pure pdir

/-- `dir_close`. -/
def dirClose (dir : Ptr) : Call Unit :=
  if dir = rootDir then pure ()
  else do
    let d ← derefDir dir
    inodeClose d.inode
    update fun s => { s with dirs := s.dirs.eraseP fun entry => entry.1 == dir }
    sysFree dir

/-- The in-memory inode of an open directory. -/
def dirInode (dir : Ptr) : Call INode := do
  let d ← derefDir dir
  derefInode d.inode

/-- The number of entries in a block, `SECTOR_SIZE / dir_entry_size`. -/
def dirEntrysPerSec (sb : SuperBlock) : Nat := 512 / sb.dirEntrySize.toNat

/-! ## Searching -/

/-- The inner loop of `search_dir_entry`: the first of `count` entries from `idx` on whose file
name is `name`. -/
def findName (b : Bytes) (name : CStr) : Nat → Nat → Option DirEntry
  | 0, _ => none
  | count + 1, idx =>
    if cstrAt b (24 * idx) (512 - 24 * idx) = name then some (DirEntry.ofBlock b idx)
    else findName b name count (idx + 1)

/-- The outer loop of `search_dir_entry`, over `count` blocks from `blockIdx` on. -/
def searchBlocks (allBlocks : Nat → UInt32) (buf : Option Ptr) (name : CStr) :
    Nat → Nat → Call (Option DirEntry)
  | 0, _ => pure none
  | count + 1, blockIdx =>
    if allBlocks blockIdx = 0 then searchBlocks allBlocks buf name count (blockIdx + 1)
    else do
      let _ ← nonNull buf
      let b ← ideRead (allBlocks blockIdx) 1
      let s ← state
      match findName b name (dirEntrysPerSec s.part.sb) 0 with
      | some e => pure (some e)
      | none => searchBlocks allBlocks buf name count (blockIdx + 1)

/-- `search_dir_entry`: the entry called `name`, or `none` for the result `false`. -/
def searchDirEntry (pdir : Ptr) (name : CStr) : Call (Option DirEntry) := do
  match ← sysMalloc (48 + 512) with
  | none => pure none
  | some allBlocksPtr =>
    let inode ← dirInode pdir
    let allBlocks ← allBlocksOf inode
    let buf ← sysMalloc 512
    let found ← searchBlocks allBlocks buf name 140 0
    -- `sys_free` asserts that its argument is not NULL
    assert buf.isSome
    sysFree (buf.getD 0)
    sysFree allBlocksPtr
    pure found

/-! ## Inserting -/

/-- `create_dir_entry` on a zeroed entry. -/
def createDirEntry (filename : CStr) (inodeNo : UInt32) (fileType : FileType) : Call DirEntry := do
  assert (filename.length ≤ maxFileNameLen)
  pure { filename := fun k => filename.getD k.val 0, iNo := inodeNo, fType := fileType.code }

/-- The first of `count` entries from `idx` on whose type is `FT_UNKNOWN`. -/
def findFree (b : Bytes) : Nat → Nat → Option Nat
  | 0, _ => none
  | count + 1, idx =>
    if (DirEntry.ofBlock b idx).fType = FileType.unknown.code then some idx
    else findFree b count (idx + 1)

/-- Increase the size of an open inode by one entry. -/
def growDir (p : Ptr) : Call Unit := do
  let s ← state
  let inode ← derefInode p
  storeInode p { inode with iSize := inode.iSize + s.part.sb.dirEntrySize }

/-- Store to `i_sectors` of an open inode. -/
def storeSector (p : Ptr) (k : Nat) (lba : UInt32) : Call Unit := do
  let inode ← derefInode p
  storeInode p (inode.setSector k lba)

/-- The step of `sync_dir_entry` that enters the new block `blockLba` at index `blockIdx` of the
directory. The first indirect block needs a second block, since the first becomes the table. The
result is the new `all_blocks`, or `none` when that second block is not there. -/
def placeBlock (p : Ptr) (blockIdx : Nat) (allBlocks : Nat → UInt32) (blockLba : UInt32) :
    Call (Option (Nat → UInt32)) :=
  if blockIdx < 12 then do
    storeSector p blockIdx blockLba
    pure (some (Function.update allBlocks blockIdx blockLba))
  else if blockIdx = 12 then do
    storeSector p 12 blockLba
    match ← blockBitmapAlloc with
    | none =>
      let s ← state
      blockBitmapSet (blockLba - s.part.sb.dataStartLba) false
      storeSector p 12 0
      pure none
    | some firstLba =>
      let s ← state
      assert (firstLba - s.part.sb.dataStartLba ≠ 0xffffffff)
      bitmapSync (firstLba - s.part.sb.dataStartLba) .block
      let allBlocks := Function.update allBlocks 12 firstLba
      ideWriteWords blockLba (fun j => allBlocks (12 + j))
      pure (some allBlocks)
  else do
    let allBlocks := Function.update allBlocks blockIdx blockLba
    let inode ← derefInode p
    ideWriteWords (inode.sector 12) (fun j => allBlocks (12 + j))
    pure (some allBlocks)

/-- The part of `sync_dir_entry` that gives the directory a block at the unused index `blockIdx`
and writes the entry to it. The result is the new `all_blocks`, or `none` when no block is left. -/
def syncNewBlock (p : Ptr) (e : DirEntry) (blockIdx : Nat) (allBlocks : Nat → UInt32) :
    Call (Option (Nat → UInt32)) := do
  match ← blockBitmapAlloc with
  | none => pure none
  | some blockLba =>
    let s ← state
    assert (blockLba - s.part.sb.dataStartLba ≠ 0xffffffff)
    bitmapSync (blockLba - s.part.sb.dataStartLba) .block
    match ← placeBlock p blockIdx allBlocks blockLba with
    | none => pure none
    | some allBlocks =>
      ideWrite (allBlocks blockIdx) (Bytes.blit (fun _ => 0) 0 e.bytes dirEntrySize) 1
      growDir p
      pure (some allBlocks)

/-- The first half of an iteration of `sync_dir_entry`: make sure that block `blockIdx` exists. -/
def ensureBlock (p : Ptr) (e : DirEntry) (blockIdx : Nat) (allBlocks : Nat → UInt32) :
    Call (Option (Nat → UInt32)) :=
  if allBlocks blockIdx = 0 then syncNewBlock p e blockIdx allBlocks else pure (some allBlocks)

/-- The part of `sync_dir_entry` that puts the entry into a free slot of block `blockLba`. -/
def syncIntoBlock (p : Ptr) (e : DirEntry) (blockLba : UInt32) : Call Bool := do
  let s ← state
  let b ← ideRead blockLba 1
  match findFree b (dirEntrysPerSec s.part.sb) 0 with
  | some idx =>
    ideWrite blockLba (Bytes.blit b (24 * idx) e.bytes dirEntrySize) 1
    growDir p
    pure true
  | none => pure false

/-- The loop of `sync_dir_entry`, over `count` blocks from `blockIdx` on. -/
def syncBlocks (p : Ptr) (e : DirEntry) : Nat → Nat → (Nat → UInt32) → Call Bool
  | 0, _, _ => pure false
  | count + 1, blockIdx, allBlocks => do
    match ← ensureBlock p e blockIdx allBlocks with
    | none => pure false
    | some allBlocks =>
      if ← syncIntoBlock p e (allBlocks blockIdx) then pure true
      else syncBlocks p e count (blockIdx + 1) allBlocks

/-- `sync_dir_entry`: write an entry into a directory. Only the direct blocks are collected. -/
def syncDirEntry (parentDir : Ptr) (e : DirEntry) : Call Bool := do
  let d ← derefDir parentDir
  let inode ← derefInode d.inode
  let s ← state
  assert (inode.iSize % s.part.sb.dirEntrySize = 0)
  syncBlocks d.inode e 140 0 fun k => if k < 12 then inode.sector k else 0

/-! ## Deleting -/

/-- An entry is live when its type is not `FT_UNKNOWN`. -/
def DirEntry.live (e : DirEntry) : Bool := e.fType != FileType.unknown.code

/-- `"."`. -/
def dotName : CStr := [46]

/-- `".."`. -/
def dotdotName : CStr := [46, 46]

/-- What the inner loop of `delete_dir_entry` collects about a block. -/
structure BlockScan where
  isDirFirstBlock : Bool
  dirEntryCnt : Nat
  dirEntryFound : Option Nat

/-- The inner loop of `delete_dir_entry`, over `count` entries from `idx` on. -/
def scanBlock (b : Bytes) (inodeNo : UInt32) : Nat → Nat → BlockScan → Call BlockScan
  | 0, _, scan => pure scan
  | count + 1, idx, scan => do
    let e := DirEntry.ofBlock b idx
    let name := cstrAt b (24 * idx) (512 - 24 * idx)
    if e.live then
      if name = dotName then
        scanBlock b inodeNo count (idx + 1) { scan with isDirFirstBlock := true }
      else if name ≠ dotdotName then
        if e.iNo = inodeNo then do
          assert scan.dirEntryFound.isNone
          scanBlock b inodeNo count (idx + 1)
            { scan with dirEntryCnt := scan.dirEntryCnt + 1, dirEntryFound := some idx }
        else
          scanBlock b inodeNo count (idx + 1) { scan with dirEntryCnt := scan.dirEntryCnt + 1 }
      else scanBlock b inodeNo count (idx + 1) scan
    else scanBlock b inodeNo count (idx + 1) scan

/-- The step of `delete_dir_entry` that takes the entry at index `idx` off the disk: a block other
than the first that holds no other entry is given back as a whole. -/
def dropEntry (p : Ptr) (blockIdx : Nat) (blockLba : UInt32) (b : Bytes) (scan : BlockScan)
    (idx : Nat) : Call Unit :=
  if scan.dirEntryCnt = 1 ∧ scan.isDirFirstBlock = false then do
    let s ← state
    blockBitmapSet (blockLba - s.part.sb.dataStartLba) false
    bitmapSync (blockLba - s.part.sb.dataStartLba) .block
    if blockIdx < 12 then storeSector p blockIdx 0
    else
      -- the loop that counts the indirect blocks never advances its index
      halt .hang
  else
    ideWrite blockLba (Bytes.blit b (24 * idx) (fun _ => 0) dirEntrySize) 1

/-- The part of `delete_dir_entry` that runs once the entry is found, at index `idx` of block
`blockIdx` with the address `blockLba` and the contents `b`. -/
def deleteFound (p : Ptr) (blockIdx : Nat) (blockLba : UInt32) (b : Bytes) (scan : BlockScan)
    (idx : Nat) : Call Unit := do
  assert (1 ≤ scan.dirEntryCnt)
  dropEntry p blockIdx blockLba b scan idx
  let s ← state
  let inode ← derefInode p
  assert (s.part.sb.dirEntrySize ≤ inode.iSize)
  let inode := { inode with iSize := inode.iSize - s.part.sb.dirEntrySize }
  storeInode p inode
  inodeSync inode 1024

/-- The outer loop of `delete_dir_entry`, over `count` blocks from `blockIdx` on. -/
def deleteBlocks (p : Ptr) (inodeNo : UInt32) (allBlocks : Nat → UInt32) : Nat → Nat → Call Bool
  | 0, _ => pure false
  | count + 1, blockIdx =>
    if allBlocks blockIdx = 0 then deleteBlocks p inodeNo allBlocks count (blockIdx + 1)
    else do
      let s ← state
      let b ← ideRead (allBlocks blockIdx) 1
      let scan ← scanBlock b inodeNo (dirEntrysPerSec s.part.sb) 0 ⟨false, 0, none⟩
      match scan.dirEntryFound with
      | none => deleteBlocks p inodeNo allBlocks count (blockIdx + 1)
      | some idx => do
        deleteFound p blockIdx (allBlocks blockIdx) b scan idx
        pure true

/-- `delete_dir_entry`: remove the entry that names `inodeNo` from a directory. -/
def deleteDirEntry (pdir : Ptr) (inodeNo : UInt32) : Call Bool := do
  let d ← derefDir pdir
  let inode ← derefInode d.inode
  let allBlocks ← allBlocksOf inode
  deleteBlocks d.inode inodeNo allBlocks 140 0

/-! ## Removing a directory -/

/-- `dir_is_empty`. -/
def dirIsEmpty (dir : Ptr) : Call Bool := do
  let inode ← dirInode dir
  let s ← state
  pure (inode.iSize = s.part.sb.dirEntrySize * 2)

/-- `dir_remove`: the result is `true` for 0 and `false` for -1. -/
def dirRemove (parentDir childDir : Ptr) : Call Bool := do
  let childDirInode ← dirInode childDir
  assert ((List.range 12).all fun k => childDirInode.sector (k + 1) == 0)
  match ← sysMalloc 1024 with
  | none => pure false
  | some ioBuf =>
    let _ ← deleteDirEntry parentDir childDirInode.iNo
    inodeRelease childDirInode.iNo
    sysFree ioBuf
    pure true

/-! ## Reading -/

/-- Store to `dir_pos` of an open directory. -/
def storeDirPos (dir : Ptr) (pos : UInt32) : Call Unit := do
  let _ ← derefDir dir
  update fun s => { s with
    dirs := s.dirs.map fun entry =>
      if entry.1 = dir then (entry.1, { entry.2 with dirPos := pos }) else entry }

/-- The inner loop of `dir_read`, over `count` entries from `idx` on: the index of the first live
entry that was not returned before, and `cur_dir_entry_pos`, which counts the live entries that
were. -/
def readSlots (b : Bytes) (dirPos dirEntrySize : UInt32) :
    Nat → Nat → UInt32 → Call (Option Nat × UInt32)
  | 0, _, curPos => pure (none, curPos)
  | count + 1, idx, curPos =>
    if (DirEntry.ofBlock b idx).live then
      if curPos < dirPos then
        readSlots b dirPos dirEntrySize count (idx + 1) (curPos + dirEntrySize)
      else do
        assert (curPos = dirPos)
        pure (some idx, curPos)
    else readSlots b dirPos dirEntrySize count (idx + 1) curPos

/-- The outer loop of `dir_read`, over `count` blocks from `blockIdx` on. -/
def readBlocks (dir : Ptr) (allBlocks : Nat → UInt32) :
    Nat → Nat → UInt32 → Call (Option (DirEntry × CStr))
  | 0, _, _ => pure none
  | count + 1, blockIdx, curPos => do
    let d ← derefDir dir
    let inode ← derefInode d.inode
    if inode.iSize ≤ d.dirPos then pure none
    else if allBlocks blockIdx = 0 then readBlocks dir allBlocks count (blockIdx + 1) curPos
    else
      let s ← state
      let b ← ideRead (allBlocks blockIdx) 1
      match ← readSlots b d.dirPos s.part.sb.dirEntrySize (dirEntrysPerSec s.part.sb) 0
          curPos with
      | (none, curPos) => readBlocks dir allBlocks count (blockIdx + 1) curPos
      | (some idx, _) =>
        storeDirPos dir (d.dirPos + s.part.sb.dirEntrySize)
        pure (some (DirEntry.ofBlock b idx, cstrAt b (24 * idx) (512 - 24 * idx)))

/-- `dir_read`: the next entry of a directory and its name as a C string, or `none` for `NULL`. -/
def dirRead (dir : Ptr) : Call (Option (DirEntry × CStr)) := do
  let inode ← dirInode dir
  let allBlocks ← allBlocksOf inode
  readBlocks dir allBlocks (if inode.sector 12 ≠ 0 then 140 else 12) 0 0

end LosKernel
