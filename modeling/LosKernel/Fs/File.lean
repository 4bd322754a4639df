import LosKernel.Fs.Dir

/-!
# Files

After `fs/file.c`. `file_table` is the table of open files; a process refers to its slots through
`fd_table`. `fileWrite` appends in the steps of the source: it gives the file the blocks it needs,
collects their addresses in `all_blocks`, and copies block by block. A result of -1 on the way out
of a loop is `none`.
-/

namespace LosKernel

open Prog

/-! ## Descriptor tables -/

/-- `fd_table[fd]`. -/
def Task.fd (task : Task) (fd : Nat) : Int := if h : fd < 8 then task.fdTable ⟨fd, h⟩ else 0

/-- `fd_table[fd] = value`. -/
def Task.setFd (task : Task) (fd : Nat) (value : Int) : Task :=
  { task with fdTable := fun k => if k.val = fd then value else task.fdTable k }

/-- The first of `count` slots from `idx` on that is free. -/
def findSlot (table : Nat → File) : Nat → Nat → Option Nat
  | 0, _ => none
  | count + 1, idx =>
    if (table idx).fdInode = none then some idx else findSlot table count (idx + 1)

/-- `get_free_slot_in_global`. -/
def getFreeSlotInGlobal : Call (Option Nat) := do
  let s ← state
  pure (findSlot s.fileTable (maxFileOpen - 3) 3)

/-- The first of `count` local descriptors from `idx` on that is free. -/
def findFd (task : Task) : Nat → Nat → Option Nat
  | 0, _ => none
  | count + 1, idx => if task.fd idx = -1 then some idx else findFd task count (idx + 1)

/-- `pcb_fd_install`. -/
def pcbFdInstall (globalFdIdx : Nat) : Call Int := do
  let task ← runningThread
  match findFd task (maxFilesOpenPerProc - 3) 3 with
  | none => pure (-1)
  | some localFdIdx =>
    storeTask (task.setFd localFdIdx globalFdIdx)
    pure localFdIdx

/-! ## Creating, opening and closing -/

/-- `sys_free` of an in-memory inode. -/
def freeInode (p : Ptr) : Call Unit := do
  update fun s => { s with inodes := Function.update s.inodes p none }
  sysFree p

/-- The last steps of `file_create`, once the entry is in the directory. -/
def finishCreate (parentDir : Ptr) (inodeNo : UInt32) (newFileInode ioBuf : Ptr) (fdIdx : Nat) :
    Call Int := do
  let parentInode ← dirInode parentDir
  inodeSync parentInode 1024
  let inode ← derefInode newFileInode
  inodeSync inode 1024
  bitmapSync inodeNo .inode
  update fun s => { s with openInodes := newFileInode :: s.openInodes }
  let inode ← derefInode newFileInode
  storeInode newFileInode { inode with iOpenCnts := 1 }
  sysFree ioBuf
  pcbFdInstall fdIdx

/-- `file_create`. The rollback steps of the source stand in its branches. -/
def fileCreate (parentDir : Ptr) (filename : CStr) (flag : UInt32) : Call Int := do
  match ← sysMalloc 1024 with
  | none => pure (-1)
  | some ioBuf =>
    match ← inodeBitmapAlloc with
    | none => pure (-1)
    | some inodeNo =>
      match ← mallocKernalInode with
      | none =>
        inodeBitmapSet inodeNo false
        sysFree ioBuf
        pure (-1)
      | some newFileInode =>
        storeInode newFileInode (inodeInit inodeNo)
        match ← getFreeSlotInGlobal with
        | none =>
          freeInode newFileInode
          inodeBitmapSet inodeNo false
          sysFree ioBuf
          pure (-1)
        | some fdIdx =>
          storeFile fdIdx ⟨0, flag, some newFileInode⟩
          let e ← createDirEntry filename inodeNo .regular
          if ← syncDirEntry parentDir e then
            finishCreate parentDir inodeNo newFileInode ioBuf fdIdx
          else
            storeFile fdIdx ⟨0, 0, none⟩
            freeInode newFileInode
            inodeBitmapSet inodeNo false
            sysFree ioBuf
            pure (-1)

/-- `flag & O_WRONLY || flag & O_RDWR`. -/
def writeFlag (flag : UInt32) : Bool := flag &&& oWronly != 0 || flag &&& oRdwr != 0

/-- `file_open`. -/
def fileOpen (inodeNo : UInt32) (flag : UInt32) : Call Int := do
  match ← getFreeSlotInGlobal with
  | none => pure (-1)
  | some fdIdx =>
    let p ← inodeOpen inodeNo
    storeFile fdIdx ⟨0, flag, some p⟩
    if writeFlag flag then
      let inode ← derefInode p
      if inode.writeDeny then pure (-1)
      else
        storeInode p { inode with writeDeny := true }
        pcbFdInstall fdIdx
    else pcbFdInstall fdIdx

/-- `file_close`. -/
def fileClose (idx : Nat) : Call Int := do
  let s ← state
  let p ← nonNull (s.fileTable idx).fdInode
  let inode ← derefInode p
  storeInode p { inode with writeDeny := false }
  inodeClose p
  storeFile idx { s.fileTable idx with fdInode := none }
  pure 0

/-! ## Writing -/

/-- The in-memory inode of an open file. -/
def fileInode (idx : Nat) : Call (Ptr × INode) := do
  let s ← state
  let p ← nonNull (s.fileTable idx).fdInode
  let inode ← derefInode p
  pure (p, inode)

/-- The step of `file_write` that gives an empty file its first block. -/
def firstBlock (p : Ptr) (inode : INode) : Call (Option Unit) :=
  if inode.sector 0 = 0 then do
    match ← blockBitmapAlloc with
    | none => pure none
    | some blockLba =>
      storeSector p 0 blockLba
      let s ← state
      assert (blockLba - s.part.sb.dataStartLba ≠ 0)
      bitmapSync (blockLba - s.part.sb.dataStartLba) .block
      pure (some ())
  else pure (some ())

/-- The loops of `file_write` that allocate `count` blocks from index `blockIdx` on. A direct block
is entered in the inode, an indirect one only in `all_blocks`. -/
def allocBlocks (p : Ptr) : Nat → Nat → (Nat → UInt32) → Call (Option (Nat → UInt32))
  | 0, _, allBlocks => pure (some allBlocks)
  | count + 1, blockIdx, allBlocks => do
    match ← blockBitmapAlloc with
    | none => pure none
    | some blockLba =>
      let inode ← derefInode p
      when (blockIdx < 12) do
        assert (inode.sector blockIdx = 0)
        storeSector p blockIdx blockLba
      let s ← state
      bitmapSync (blockLba - s.part.sb.dataStartLba) .block
      allocBlocks p count (blockIdx + 1) (Function.update allBlocks blockIdx blockLba)

section

variable (put : UInt32 → Bytes → Call Unit) (sync : INode → Call Unit)

/-- The second situation of `file_write`: the new data is the first to need the indirect table. -/
def allocTable (p : Ptr) (inode : INode) (hasUsed willUse : Nat) :
    Call (Option (Nat → UInt32)) := do
  let allBlocks := Function.update (fun _ => 0) (hasUsed - 1) (inode.sector (hasUsed - 1))
  match ← blockBitmapAlloc with
  | none => pure none
  | some tableLba =>
    assert (inode.sector 12 = 0)
    storeSector p 12 tableLba
    match ← allocBlocks p (willUse - hasUsed) hasUsed allBlocks with
    | none => pure none
    | some allBlocks =>
      put tableLba (Bytes.words fun j => allBlocks (12 + j))
      pure (some allBlocks)

/-- The entries of `all_blocks` that an indirect table fills. -/
def withTable (table : Nat → UInt32) (k : Nat) : UInt32 :=
  if 12 ≤ k ∧ k < 140 then table (k - 12) else 0

/-- The step of `file_write` that allocates blocks and collects `all_blocks`, for a file that has
`hasUsed` blocks and will have `willUse`. -/
def collectWrite (p : Ptr) (inode : INode) (hasUsed willUse : Nat) : Call (Option (Nat → UInt32)) :=
  if willUse = hasUsed then
    if hasUsed ≤ 12 then
      pure (some (Function.update (fun _ => 0) (hasUsed - 1) (inode.sector (hasUsed - 1))))
    else do
      assert (inode.sector 12 ≠ 0)
      let table ← ideReadWords (inode.sector 12)
      pure (some (withTable table))
  else if willUse ≤ 12 then do
    access (hasUsed - 1 < 13)
    assert (inode.sector (hasUsed - 1) ≠ 0)
    allocBlocks p (willUse - hasUsed) hasUsed
      (Function.update (fun _ => 0) (hasUsed - 1) (inode.sector (hasUsed - 1)))
  else if hasUsed ≤ 12 then allocTable put p inode hasUsed willUse
  else do
    assert (inode.sector 12 ≠ 0)
    let table ← ideReadWords (inode.sector 12)
    match ← allocBlocks p (willUse - hasUsed) hasUsed (withTable table) with
    | none => pure none
    | some allBlocks =>
      put (inode.sector 12) (Bytes.words fun j => allBlocks (12 + j))
      pure (some allBlocks)

/-- What `io_buf` holds before a chunk is copied into it: the first block written may hold data. -/
def blockBefore (firstWriteBlock : Bool) (secLba : UInt32) : Call Bytes :=
  if firstWriteBlock then ideRead secLba 1 else pure fun _ => 0

/-- One iteration of the copy loop of `file_write`: append a chunk of the remaining data to the
block the file ends in. The result is the size of the chunk. -/
def writeChunk (idx : Nat) (p : Ptr) (buf : Bytes) (allBlocks : Nat → UInt32) (count : UInt32)
    (firstWriteBlock : Bool) (bytesWritten : UInt32) : Call UInt32 := do
  let inode ← derefInode p
  let secIdx := inode.iSize.toNat / 512
  access (secIdx < 140)
  let secLba := allBlocks secIdx
  let secOffBytes := inode.iSize % 512
  let secLeftBytes := 512 - secOffBytes
  let sizeLeft := count - bytesWritten
  let chunkSize := if sizeLeft < secLeftBytes then sizeLeft else secLeftBytes
  let ioBuf ← blockBefore firstWriteBlock secLba
  put secLba
    (Bytes.blit ioBuf secOffBytes.toNat (Bytes.shift buf bytesWritten.toNat) chunkSize.toNat)
  storeInode p { inode with iSize := inode.iSize + chunkSize }
  let s ← state
  storeFile idx { s.fileTable idx with fdPos := (s.fileTable idx).fdPos + chunkSize }
  pure chunkSize

/-- The copy loop of `file_write`. Each iteration writes at least one byte, so `count + 1`
iterations are enough. -/
def writeLoop (idx : Nat) (p : Ptr) (buf : Bytes) (allBlocks : Nat → UInt32) (count : UInt32) :
    Nat → Bool → UInt32 → Call UInt32
  | 0, _, _ => halt .hang
  | fuel + 1, firstWriteBlock, bytesWritten =>
    if bytesWritten < count then do
      let chunkSize ← writeChunk put idx p buf allBlocks count firstWriteBlock bytesWritten
      writeLoop idx p buf allBlocks count fuel false (bytesWritten + chunkSize)
    else pure bytesWritten

/-- The last part of `file_write`: set the position, copy the data and store the inode. -/
def appendData (idx : Nat) (p : Ptr) (buf : Bytes) (count : UInt32) (allBlocks : Nat → UInt32) :
    Call UInt32 := do
  let inode ← derefInode p
  let s ← state
  storeFile idx { s.fileTable idx with fdPos := inode.iSize - 1 }
  let bytesWritten ← writeLoop put idx p buf allBlocks count (count.toNat + 1) true 0
  let inode ← derefInode p
  sync inode
  pure bytesWritten

/-- The body of `file_write`, once its two buffers are allocated. -/
def writeBody (idx : Nat) (p : Ptr) (buf : Bytes) (count : UInt32) : Call (Option UInt32) := do
  let inode ← derefInode p
  match ← firstBlock p inode with
  | none => pure none
  | some () =>
    let inode ← derefInode p
    let fileHasUsedBlocks := inode.iSize.toNat / 512 + 1
    let fileWillUseBlocks := (inode.iSize + count).toNat / 512 + 1
    assert (fileWillUseBlocks ≤ 140)
    match ← collectWrite put p inode fileHasUsedBlocks fileWillUseBlocks with
    | none => pure none
    | some allBlocks =>
      let bytesWritten ← appendData put sync idx p buf count allBlocks
      pure (some bytesWritten)

/-- `file_write` with `put` for the transfers of blocks of the file and `sync` for `inode_sync`. -/
def fileWriteWith (idx : Nat) (buf : Bytes) (count : UInt32) : Call Int := do
  let (p, inode) ← fileInode idx
  if 512 * 140 < inode.iSize + count then pure (-1)
  else
    match ← sysMalloc 512 with
    | none => pure (-1)
    | some ioBuf =>
      match ← sysMalloc (512 + 48) with
      | none => pure (-1)
      | some allBlocksPtr =>
        match ← writeBody put sync idx p buf count with
        | none => pure (-1)
        | some bytesWritten =>
          sysFree allBlocksPtr
          sysFree ioBuf
          pure bytesWritten.toNat

end

/-- `file_write`. The buffer `io_buf` that `inode_sync` uses has the size of one block. -/
def fileWrite : Nat → Bytes → UInt32 → Call Int :=
  fileWriteWith (fun lba buf => ideWrite lba buf 1) (fun inode => inodeSync inode 512)

/-! ## Reading -/

/-- The step of `file_read` that collects `all_blocks`. -/
def collectRead (inode : INode) (startIdx endIdx : Nat) : Call (Nat → UInt32) :=
  if startIdx = endIdx then
    if endIdx < 12 then pure (Function.update (fun _ => 0) endIdx (inode.sector endIdx))
    else do
      let table ← ideReadWords (inode.sector 12)
      pure (withTable table)
  else if endIdx < 12 then
    pure fun k => if startIdx ≤ k ∧ k ≤ endIdx then inode.sector k else 0
  else if startIdx < 12 then do
    assert (inode.sector 12 ≠ 0)
    let table ← ideReadWords (inode.sector 12)
    pure fun k => if startIdx ≤ k ∧ k < 12 then inode.sector k else withTable table k
  else do
    assert (inode.sector 12 ≠ 0)
    let table ← ideReadWords (inode.sector 12)
    pure (withTable table)

/-- The copy loop of `file_read`. Each iteration reads at least one byte, so `size + 1` iterations
are enough. The result is the number of bytes read and the bytes stored to the caller's buffer. -/
def readLoop (idx : Nat) (ioBuf : Option Ptr) (allBlocks : Nat → UInt32) (size : UInt32) :
    Nat → UInt32 → Bytes → Call (UInt32 × Bytes)
  | 0, _, _ => halt .hang
  | fuel + 1, bytesRead, dst =>
    if bytesRead < size then do
      let s ← state
      let file := s.fileTable idx
      let secIdx := file.fdPos.toNat / 512
      access (secIdx < 140)
      let secLba := allBlocks secIdx
      let secOffBytes := file.fdPos % 512
      let secLeftBytes := 512 - secOffBytes
      let sizeLeft := size - bytesRead
      let chunkSize := if sizeLeft < secLeftBytes then sizeLeft else secLeftBytes
      -- `memset` asserts that its destination is not NULL
      assert ioBuf.isSome
      let b ← ideRead secLba 1
      storeFile idx { file with fdPos := file.fdPos + chunkSize }
      readLoop idx ioBuf allBlocks size fuel (bytesRead + chunkSize)
        (Bytes.blit dst bytesRead.toNat (Bytes.shift b secOffBytes.toNat) chunkSize.toNat)
    else pure (bytesRead, dst)

/-- The part of `file_read` after the number of bytes is known. -/
def readBody (idx : Nat) (inode : INode) (size : UInt32) : Call (Int × Bytes) := do
  let s ← state
  let ioBuf ← sysMalloc 512
  match ← sysMalloc (512 + 48) with
  | none => pure (-1, fun _ => 0)
  | some allBlocksPtr =>
    let startIdx := (s.fileTable idx).fdPos.toNat / 512
    let endIdx := ((s.fileTable idx).fdPos + size).toNat / 512
    assert (startIdx < 139 ∧ endIdx < 139)
    let allBlocks ← collectRead inode startIdx endIdx
    let (bytesRead, dst) ← readLoop idx ioBuf allBlocks size (size.toNat + 1) 0 fun _ => 0
    sysFree allBlocksPtr
    assert ioBuf.isSome
    sysFree (ioBuf.getD 0)
    pure (bytesRead.toNat, dst)

/-- `file_read`: the result and the bytes stored to the caller's buffer. -/
def fileRead (idx : Nat) (count : UInt32) : Call (Int × Bytes) := do
  let (_, inode) ← fileInode idx
  let s ← state
  let file := s.fileTable idx
  if inode.iSize < file.fdPos + count then
    if inode.iSize - file.fdPos = 0 then pure (-1, fun _ => 0)
    else readBody idx inode (inode.iSize - file.fdPos)
  else readBody idx inode count

end LosKernel
