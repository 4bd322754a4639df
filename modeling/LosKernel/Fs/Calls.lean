import LosKernel.Fs.Path

/-!
# System calls on files and directories

After the `sys_` functions of `fs/fs.c`. Messages to the console by `printk` are left out; what
`sys_write` sends to standard output is kept. Results are integers, -1 for a failure.
-/

namespace LosKernel

open Prog

/-- `strrchr(path, '/') + 1`. -/
def baseName (path : CStr) : CStr := (path.reverse.takeWhile (· != slash)).reverse

/-- Close the directory a search left open, and fail. -/
def closeAndFail (dir : Ptr) : Call Int := do
  dirClose dir
  pure (-1)

/-- The part of `sys_open` after the search. -/
def openFound (pathname : CStr) (flags : UInt32) (pathnameDepth : Nat) (inodeNo : UInt32)
    (found : PathSearchRecord) : Call Int := do
  if found.fileType = .directory then closeAndFail found.parentDir
  else
    let pathSearchedDepth ← pathDepthCnt found.searchedPath
    if pathnameDepth ≠ pathSearchedDepth then closeAndFail found.parentDir
    else if inodeNo = noInode ∧ flags &&& oCreat = 0 then closeAndFail found.parentDir
    else if inodeNo ≠ noInode ∧ flags &&& oCreat ≠ 0 then closeAndFail found.parentDir
    else if flags &&& oCreat ≠ 0 then
      let fd ← fileCreate found.parentDir (baseName pathname) flags
      dirClose found.parentDir
      pure fd
    else fileOpen inodeNo flags

/-- `sys_open`. -/
def sysOpen (pathname : CStr) (flags : UInt32) : Call Int := do
  access (pathname ≠ [])
  if pathname.getLast? = some slash then pure (-1)
  else
    assert (flags ≤ 7)
    let pathnameDepth ← pathDepthCnt pathname
    let (inodeNo, found) ← searchFile pathname
    openFound pathname flags pathnameDepth inodeNo found

/-- `fd_local2global`. -/
def fdLocal2Global (localFd : Int) : Call Nat := do
  let cur ← runningThread
  access (0 ≤ localFd ∧ localFd < 8)
  let globalFd := cur.fd localFd.toNat
  assert (0 ≤ globalFd ∧ globalFd < 32)
  pure globalFd.toNat

/-- `sys_close`. -/
def sysClose (fd : Int) : Call Int :=
  if 2 < fd then do
    let globalFd ← fdLocal2Global fd
    let ret ← fileClose globalFd
    let task ← runningThread
    storeTask (task.setFd fd.toNat (-1))
    pure ret
  else pure (-1)

/-- `sys_write` to standard output: the bytes go through a buffer of 1024 bytes, and the console
prints them up to the first zero byte. -/
def writeStdout (buf : Bytes) (count : UInt32) : Call Int := do
  access (count ≤ 1024)
  let text := cstrAt (fun i => if i < count.toNat then buf i else 0) 0 1024
  access (text.length < 1024)
  update fun s => { s with console := s.console ++ text }
  pure count.toNat

/-- `sys_write`. -/
def sysWrite (fd : Int) (buf : Bytes) (count : UInt32) : Call Int :=
  if fd < 0 then pure (-1)
  else if fd = 1 then writeStdout buf count
  else do
    let globalFd ← fdLocal2Global fd
    let s ← state
    if writeFlag (s.fileTable globalFd).fdFlag then fileWrite globalFd buf count
    else pure (-1)

/-- `sys_read` from the keyboard. -/
def readStdin (count : UInt32) : Call (Int × Bytes) := do
  let s ← state
  update fun s => { s with keybdPos := s.keybdPos + count.toNat }
  pure (if count = 0 then -1 else count.toNat,
    Bytes.blit (fun _ => 0) 0 (Bytes.shift s.keybd s.keybdPos) count.toNat)

/-- `sys_read`: the result and the bytes stored to the caller's buffer. -/
def sysRead (fd : Int) (count : UInt32) : Call (Int × Bytes) :=
  if fd < 0 ∨ fd = 1 ∨ fd = 2 then pure (-1, fun _ => 0)
  else if fd = 0 then readStdin count
  else do
    let globalFd ← fdLocal2Global fd
    fileRead globalFd count

/-- The position `sys_lseek` computes, in 32-bit arithmetic. -/
def seekTarget (fdPos fileSize : UInt32) (offset : Int32) (whence : Nat) : Int32 :=
  if whence = 1 then offset
  else if whence = 2 then fdPos.toInt32 + offset
  else fileSize.toInt32 + offset

/-- `sys_lseek`. -/
def sysLseek (fd : Int) (offset : Int32) (whence : Nat) : Call Int :=
  if fd < 0 then pure (-1)
  else do
    assert (0 < whence ∧ whence < 4)
    let globalFd ← fdLocal2Global fd
    let (_, inode) ← fileInode globalFd
    let s ← state
    let file := s.fileTable globalFd
    let newPos := seekTarget file.fdPos inode.iSize offset whence
    if newPos < 0 ∨ inode.iSize.toInt32 - 1 < newPos then pure (-1)
    else
      storeFile globalFd { file with fdPos := newPos.toUInt32 }
      pure newPos.toInt

/-- The loop of `sys_unlink` over `count` slots of `file_table` from `idx` on: whether one of them
holds the inode. -/
def fileInUse (inodeNo : UInt32) : Nat → Nat → Call Bool
  | 0, _ => pure false
  | count + 1, idx => do
    let s ← state
    match (s.fileTable idx).fdInode with
    | none => fileInUse inodeNo count (idx + 1)
    | some p =>
      let inode ← derefInode p
      if inode.iNo = inodeNo then pure true else fileInUse inodeNo count (idx + 1)

/-- The part of `sys_unlink` that deletes the file. -/
def unlinkFound (inodeNo : UInt32) (found : PathSearchRecord) : Call Int := do
  if ← fileInUse inodeNo maxFileOpen 0 then closeAndFail found.parentDir
  else
    match ← sysMalloc 1024 with
    | none => closeAndFail found.parentDir
    | some ioBuf =>
      let _ ← deleteDirEntry found.parentDir inodeNo
      inodeRelease inodeNo
      sysFree ioBuf
      dirClose found.parentDir
      pure 0

/-- `sys_unlink`. -/
def sysUnlink (pathname : CStr) : Call Int := do
  assert (pathname.length < maxPathLen)
  let (inodeNo, found) ← searchFile pathname
  assert (inodeNo ≠ 0)
  if inodeNo = noInode then closeAndFail found.parentDir
  else if found.fileType = .directory then closeAndFail found.parentDir
  else unlinkFound inodeNo found

/-! ## Directories -/

/-- The first block of a new directory: the entries `.` and `..`. -/
def dotBlock (inodeNo parentNo : UInt32) : Bytes :=
  let entry (name : CStr) (no : UInt32) : DirEntry :=
    { filename := fun k => name.getD k.val 0, iNo := no, fType := FileType.directory.code }
  Bytes.blit (Bytes.blit (fun _ => 0) 0 (entry dotName inodeNo).bytes dirEntrySize) 24
    (entry dotdotName parentNo).bytes dirEntrySize

/-- Close the directory a search left open, release the buffer, and fail: the rollback of
`sys_mkdir`. -/
def mkdirFail (dir ioBuf : Ptr) : Call Int := do
  dirClose dir
  sysFree ioBuf
  pure (-1)

/-- The part of `sys_mkdir` after the blocks of the new directory are written. -/
def mkdirEnter (dirname : CStr) (inodeNo : UInt32) (newDirInode : INode) (parentDir ioBuf : Ptr) :
    Call Int := do
  let e ← createDirEntry dirname inodeNo .directory
  if ← syncDirEntry parentDir e then
    let parentInode ← dirInode parentDir
    inodeSync parentInode 1024
    inodeSync newDirInode 1024
    bitmapSync inodeNo .inode
    sysFree ioBuf
    dirClose parentDir
    pure 0
  else
    inodeBitmapSet inodeNo false
    mkdirFail parentDir ioBuf

/-- The part of `sys_mkdir` that makes the directory. -/
def mkdirAt (dirname : CStr) (parentDir ioBuf : Ptr) : Call Int := do
  match ← inodeBitmapAlloc with
  | none => mkdirFail parentDir ioBuf
  | some inodeNo =>
    match ← blockBitmapAlloc with
    | none =>
      inodeBitmapSet inodeNo false
      mkdirFail parentDir ioBuf
    | some blockLba =>
      let s ← state
      assert (blockLba - s.part.sb.dataStartLba ≠ 0)
      bitmapSync (blockLba - s.part.sb.dataStartLba) .block
      let parentInode ← dirInode parentDir
      ideWrite blockLba (dotBlock inodeNo parentInode.iNo) 1
      let newDirInode :=
        { (inodeInit inodeNo).setSector 0 blockLba with iSize := 2 * s.part.sb.dirEntrySize }
      mkdirEnter dirname inodeNo newDirInode parentDir ioBuf

/-- `sys_mkdir`. -/
def sysMkdir (pathname : CStr) : Call Int := do
  match ← sysMalloc 1024 with
  | none => pure (-1)
  | some ioBuf =>
    let (inodeNo, found) ← searchFile pathname
    if inodeNo ≠ noInode then mkdirFail found.parentDir ioBuf
    else
      let pathnameDepth ← pathDepthCnt pathname
      let pathSearchedDepth ← pathDepthCnt found.searchedPath
      if pathnameDepth ≠ pathSearchedDepth then mkdirFail found.parentDir ioBuf
      else mkdirAt (baseName found.searchedPath) found.parentDir ioBuf

/-- `sys_opendir`: the directory handle, or `none` for `NULL`. -/
def sysOpendir (name : CStr) : Call (Option Ptr) := do
  assert (name.length < maxPathLen)
  if name = [slash] then pure (some rootDir)
  else
    let (inodeNo, found) ← searchFile name
    if inodeNo ≠ noInode ∧ found.fileType = .directory then
      let dir ← dirOpen inodeNo
      dirClose found.parentDir
      pure (some dir)
    else
      dirClose found.parentDir
      pure none

/-- `sys_closedir`. -/
def sysClosedir (dir : Option Ptr) : Call Int :=
  match dir with
  | none => pure (-1)
  | some dir => do
    dirClose dir
    pure 0

/-- `sys_readdir`. -/
def sysReaddir (dir : Ptr) : Call (Option (DirEntry × CStr)) := dirRead dir

/-- `sys_rewinddir`. -/
def sysRewinddir (dir : Ptr) : Call Unit := storeDirPos dir 0

/-- The part of `sys_rmdir` that removes the directory when it is empty. -/
def rmdirFound (inodeNo : UInt32) (parentDir : Ptr) : Call Int := do
  let dir ← dirOpen inodeNo
  if ← dirIsEmpty dir then
    let removed ← dirRemove parentDir dir
    dirClose dir
    pure (if removed then 0 else -1)
  else
    dirClose dir
    pure (-1)

/-- `sys_rmdir`. -/
def sysRmdir (pathname : CStr) : Call Int := do
  let (inodeNo, found) ← searchFile pathname
  assert (inodeNo ≠ 0)
  if inodeNo = noInode then closeAndFail found.parentDir
  else if found.fileType = .regular then closeAndFail found.parentDir
  else
    let retval ← rmdirFound inodeNo found.parentDir
    dirClose found.parentDir
    pure retval

/-! ## The working directory and file information -/

/-- `get_parent_dir_inode_nr`. -/
def getParentDirInodeNr (childInodeNr : UInt32) : Call UInt32 := do
  let p ← inodeOpen childInodeNr
  let inode ← derefInode p
  let s ← state
  assert (s.part.sb.dataStartLba ≤ inode.sector 0)
  inodeClose p
  let b ← ideRead (inode.sector 0) 1
  let e := DirEntry.ofBlock b 1
  assert (e.iNo < 4096 ∧ e.fType = FileType.directory.code)
  pure e.iNo

/-- The inner loop of `get_child_dir_name`: the name of the first of `count` entries from `idx` on
that names the inode. -/
def findChild (b : Bytes) (cInodeNr : UInt32) : Nat → Nat → Option CStr
  | 0, _ => none
  | count + 1, idx =>
    if (DirEntry.ofBlock b idx).iNo = cInodeNr then some (cstrAt b (24 * idx) (512 - 24 * idx))
    else findChild b cInodeNr count (idx + 1)

/-- The outer loop of `get_child_dir_name`. -/
def findChildBlocks (allBlocks : Nat → UInt32) (cInodeNr : UInt32) : Nat → Nat → Call (Option CStr)
  | 0, _ => pure none
  | count + 1, blockIdx =>
    if allBlocks blockIdx = 0 then findChildBlocks allBlocks cInodeNr count (blockIdx + 1)
    else do
      let b ← ideRead (allBlocks blockIdx) 1
      let s ← state
      match findChild b cInodeNr (dirEntrysPerSec s.part.sb) 0 with
      | some name => pure (some name)
      | none => findChildBlocks allBlocks cInodeNr count (blockIdx + 1)

/-- `get_child_dir_name`: the name, or `none` for -1. -/
def getChildDirName (pInodeNr cInodeNr : UInt32) : Call (Option CStr) := do
  let p ← inodeOpen pInodeNr
  let inode ← derefInode p
  let allBlocks ← allBlocksOf inode
  inodeClose p
  findChildBlocks allBlocks cInodeNr (if inode.sector 12 ≠ 0 then 140 else 12) 0

/-- The loop of `sys_getcwd` that climbs to the root. It adds at least one character to a buffer of
128 bytes in every round. -/
def climb : Nat → UInt32 → CStr → Call (Option CStr)
  | 0, _, _ => halt .hang
  | fuel + 1, childInodeNr, fullPathReverse =>
    if childInodeNr = 0 then pure (some fullPathReverse)
    else do
      let parentInodeNr ← getParentDirInodeNr childInodeNr
      match ← getChildDirName parentInodeNr childInodeNr with
      | none => pure none
      | some name =>
        access ((fullPathReverse ++ [slash] ++ name).length < maxPathLen)
        climb fuel parentInodeNr (fullPathReverse ++ [slash] ++ name)

/-- The last loop of `sys_getcwd`: move the components over, the last one first. -/
def reverseComponents : Nat → CStr → CStr → CStr
  | 0, _, buf => buf
  | fuel + 1, path, buf =>
    if slash ∈ path then
      reverseComponents fuel ((path.reverse.dropWhile (· != slash)).drop 1).reverse
        (buf ++ slash :: baseName path)
    else buf

/-- `sys_getcwd`: the path, or `none` for `NULL`. -/
def sysGetcwd (size : UInt32) : Call (Option CStr) := do
  match ← sysMalloc 512 with
  | none => pure none
  | some ioBuf =>
    let curThread ← runningThread
    assert (curThread.cwdInodeNr < 4096)
    if curThread.cwdInodeNr = 0 then pure (some [slash])
    else
      match ← climb maxPathLen curThread.cwdInodeNr [] with
      | none =>
        sysFree ioBuf
        pure none
      | some fullPathReverse =>
        assert (fullPathReverse.length ≤ size.toNat)
        sysFree ioBuf
        pure (some (reverseComponents (fullPathReverse.length + 1) fullPathReverse []))

/-- `sys_chdir`. -/
def sysChdir (path : CStr) : Call Int := do
  let (inodeNo, found) ← searchFile path
  if inodeNo ≠ noInode ∧ found.fileType = .directory then
    let task ← runningThread
    storeTask { task with cwdInodeNr := inodeNo }
    dirClose found.parentDir
    pure 0
  else closeAndFail found.parentDir

/-- `stat`. -/
structure Stat where
  stIno : UInt32
  stSize : UInt32
  stFiletype : FileType
  deriving DecidableEq, Repr

/-- `sys_stat`: the information, or `none` for the result -1. -/
def sysStat (path : CStr) : Call (Option Stat) :=
  if isRootPath path then do
    let inode ← dirInode rootDir
    pure (some ⟨0, inode.iSize, .directory⟩)
  else do
    let (inodeNo, found) ← searchFile path
    if inodeNo ≠ noInode then
      let objInode ← inodeOpen inodeNo
      let inode ← derefInode objInode
      inodeClose objInode
      dirClose found.parentDir
      pure (some ⟨inodeNo, inode.iSize, found.fileType⟩)
    else
      dirClose found.parentDir
      pure none

end LosKernel
