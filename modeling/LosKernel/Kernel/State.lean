import LosKernel.Kernel.Bitmap
import LosKernel.Lib.Prog

/-!
# The kernel state

The records of `fs/inode.h`, `fs/dir.h`, `fs/file.h`, `fs/superblock.h`, `device/ide.h` and
`thread/thread.h`, as far as the file system and the descriptor tables use them, with their layout
on disk.

`Kernel` collects what the file-system code reads and writes. A system call is a `Call`, a program
over `Kernel` that returns or stops: when an `ASSERT` fails or a `PANIC` is reached, when it
accesses memory outside its objects, or when it never returns. `grant k size` says whether the
`k`-th request for memory, of `size` bytes, is served. A value that the source reads from an
uninitialised local is `junk`.
-/

namespace LosKernel

open Prog

/-- Why a call does not return. -/
inductive Stop where
  /-- An `ASSERT` failed or a `PANIC` was reached: `painc_spin` never returns. -/
  | assertFailed
  /-- A read or write through `NULL`, through a pointer to a freed object, or outside an array. -/
  | badAccess
  /-- A loop of the source that does not end. -/
  | hang
  deriving DecidableEq, Repr

/-- `next_pid++` in `allocate_pid`: a `pid_t` has 16 bits. -/
def incPid (nextPid : Int) : Int := Int.bmod (nextPid + 1) (2 ^ 16)

/-- A C string: its bytes before the terminating zero. -/
abbrev CStr := List UInt8

/-- The C string at offset `off` of a buffer with `limit` bytes left. -/
def cstrAt (b : Bytes) (off : Nat) : Nat → CStr
  | 0 => []
  | limit + 1 => if b off = 0 then [] else b off :: cstrAt b (off + 1) limit

/-- The address of a heap object. `&root_dir` has the address 0, which no heap object has. -/
abbrev Ptr := Nat

/-! ## Constants -/

/-- `MAX_PATH_LEN`. -/
def maxPathLen : Nat := 128

/-- `MAX_FILE_NAME_LEN`. -/
def maxFileNameLen : Nat := 16

/-- `MAX_FILE_OPEN`. -/
def maxFileOpen : Nat := 32

/-- `MAX_FILES_OPEN_PER_PROC`. -/
def maxFilesOpenPerProc : Nat := 8

/-- `O_WRONLY`. -/
def oWronly : UInt32 := 1

/-- `O_RDWR`. -/
def oRdwr : UInt32 := 3

/-- `O_CREAT`. -/
def oCreat : UInt32 := 4

/-- `file_types`. -/
inductive FileType where
  | unknown
  | regular
  | directory
  deriving DecidableEq, Repr

/-- The value of a `file_types` enumerator, as it is stored in a directory entry. -/
def FileType.code : FileType → UInt32
  | .unknown => 0
  | .regular => 1
  | .directory => 2

/-- `task_status`. -/
inductive TaskStatus where
  | running
  | ready
  | blocked
  | waiting
  | hanging
  | died
  deriving DecidableEq, Repr

/-! ## Records -/

/-- `INode`. The count of handles is a natural number: each handle is a live object of its own, so
the 32-bit counter of the source cannot wrap. Membership in `open_inodes` replaces `inode_tag`. -/
structure INode where
  iNo : UInt32
  iSize : UInt32
  iOpenCnts : Nat
  writeDeny : Bool
  iSectors : Fin 13 → UInt32

/-- `sizeof(INode)`. -/
def inodeSize : Nat := 76

/-- `i_sectors[k]`. -/
def INode.sector (inode : INode) (k : Nat) : UInt32 :=
  if h : k < 13 then inode.iSectors ⟨k, h⟩ else 0

/-- `i_sectors[k] = lba`. -/
def INode.setSector (inode : INode) (k : Nat) (lba : UInt32) : INode :=
  { inode with iSectors := fun j => if j.val = k then lba else inode.iSectors j }

/-- The 19 words of an `INode` as it is stored on disk; the last two are `inode_tag`. -/
def INode.toWords (inode : INode) (k : Nat) : UInt32 :=
  if k = 0 then inode.iNo
  else if k = 1 then inode.iSize
  else if k = 2 then UInt32.ofNat inode.iOpenCnts
  else if k = 3 then (if inode.writeDeny then 1 else 0)
  else inode.sector (k - 4)

/-- The bytes of an `INode`. -/
def INode.bytes (inode : INode) : Bytes := Bytes.words inode.toWords

/-- The `INode` whose bytes start at offset `off`. -/
def INode.ofBytes (b : Bytes) (off : Nat) : INode where
  iNo := Bytes.word b off
  iSize := Bytes.word b (off + 4)
  iOpenCnts := (Bytes.word b (off + 8)).toNat
  writeDeny := b (off + 12) != 0
  iSectors := fun k => Bytes.word b (off + 16 + 4 * k.val)

/-- `DirEntry`. The file type is kept as the stored number, since a block may hold any. -/
structure DirEntry where
  filename : Fin 16 → UInt8
  iNo : UInt32
  fType : UInt32

/-- `sizeof(DirEntry)`. -/
def dirEntrySize : Nat := 24

/-- The bytes of a `DirEntry`. -/
def DirEntry.bytes (e : DirEntry) : Bytes := fun i =>
  if h : i < 16 then e.filename ⟨i, h⟩
  else Bytes.words (fun k => if k = 0 then e.iNo else e.fType) (i - 16)

/-- Entry `idx` of a block of directory entries. -/
def DirEntry.ofBlock (b : Bytes) (idx : Nat) : DirEntry where
  filename := fun k => b (24 * idx + k.val)
  iNo := Bytes.word b (24 * idx + 16)
  fType := Bytes.word b (24 * idx + 20)

/-- `SuperBlock`. -/
structure SuperBlock where
  magic : UInt32
  secCnt : UInt32
  inodeCnt : UInt32
  partLbaBase : UInt32
  blockBitmapLba : UInt32
  blockBitmapSects : UInt32
  inodeBitmapLba : UInt32
  inodeBitmapSects : UInt32
  inodeTableLba : UInt32
  inodeTableSects : UInt32
  dataStartLba : UInt32
  rootInodeNo : UInt32
  dirEntrySize : UInt32
  deriving DecidableEq, Repr

/-- `Partition`, without its links to the disk and to the list of partitions. -/
structure Partition where
  startLba : UInt32
  secCnt : UInt32
  sb : SuperBlock
  blockBitmap : BitMap
  inodeBitmap : BitMap

/-- `Dir`. The buffer `dir_buf` is only scratch space of `dir_read`. -/
structure Dir where
  inode : Ptr
  dirPos : UInt32

/-- `File`, one slot of `file_table`. -/
structure File where
  fdPos : UInt32
  fdFlag : UInt32
  fdInode : Option Ptr
  deriving DecidableEq, Repr

/-- The part of `TaskStruct` that system calls on files use. -/
structure Task where
  pid : Int
  parentPid : Int
  status : TaskStatus
  fdTable : Fin 8 → Int
  cwdInodeNr : UInt32

/-- The heap as the file system sees it: how many requests were made, and the blocks handed out
and not yet freed. -/
structure Heap where
  requests : Nat
  live : List Ptr

/-- The kernel state. -/
structure Kernel where
  grant : Nat → Nat → Bool
  junk : Nat → UInt32
  heap : Heap
  disk : Bytes
  part : Partition
  openInodes : List Ptr
  inodes : Ptr → Option INode
  dirs : List (Ptr × Dir)
  fileTable : Nat → File
  tasks : Ptr → Option Task
  threadAllList : List Ptr
  cur : Ptr
  nextPid : Int
  keybd : Nat → UInt8
  keybdPos : Nat
  console : List UInt8

variable {Q : Unit → Kernel → Prop} {p : Ptr} {ok : Stop → Prop} {s : Kernel}

/-- A partition of `secCnt` sectors from `startLba` on before it is mounted. -/
def Partition.unmounted (startLba secCnt : UInt32) : Partition where
  startLba := startLba
  secCnt := secCnt
  sb := ⟨0, 0, 0, 0, 0, 0, 0, 0, 0, 0, 0, 0, 0⟩
  blockBitmap := ⟨0, fun _ => 0⟩
  inodeBitmap := ⟨0, fun _ => 0⟩

/-- A kernel that has just started: the disk is empty, no partition is mounted, one process with
the standard descriptors runs, and every request for memory is served. -/
def Kernel.start : Kernel where
  grant := fun _ _ => true
  junk := fun _ => 0
  heap := ⟨1, [1]⟩
  disk := fun _ => 0
  part := .unmounted 0 0
  openInodes := []
  inodes := fun _ => none
  dirs := []
  fileTable := fun _ => ⟨0, 0, none⟩
  tasks := fun p =>
    if p = 1 then some ⟨1, -1, .running, fun k => if k.val < 3 then k.val else -1, 0⟩ else none
  threadAllList := [1]
  cur := 1
  nextPid := 1
  keybd := fun _ => 0
  keybdPos := 0
  console := []

/-- A kernel program. -/
abbrev Call (α : Type) := Prog Stop Kernel α

section

variable {σ α : Type} {x : σ} {condition : Bool}

/-- `ASSERT`. -/
def assert (condition : Bool) : Prog Stop σ Unit := Prog.guard condition .assertFailed

/-- An access that is only defined when the condition holds. -/
def access (condition : Bool) : Prog Stop σ Unit := Prog.guard condition .badAccess

/-- Use of a pointer that may be `NULL`. -/
def nonNull (p : Option α) : Prog Stop σ α :=
  match p with
  | some p => pure p
  | none => halt .badAccess

@[simp] theorem wp_assert {Q : Unit → σ → Prop} : wp ok (assert condition) x Q ↔
      (condition = true → Q () x) ∧ (condition = false → ok .assertFailed) := wp_guard

@[simp] theorem wp_access {Q : Unit → σ → Prop} : wp ok (access condition) x Q ↔
      (condition = true → Q () x) ∧ (condition = false → ok .badAccess) := wp_guard

@[simp] theorem wp_non_null {p : Option α} {Q : α → σ → Prop} :
    wp ok (nonNull p) x Q ↔ (∀ a, p = some a → Q a x) ∧ (p = none → ok .badAccess) := by
  cases p <;> simp [nonNull]

theorem keeps_non_null {R : σ → σ → Prop} [Std.Refl R] (p : Option α) : Keeps R (nonNull p) := by
  cases p with
  | none => exact .halt _
  | some a => exact .pure a

end

/-! ## Heap objects -/

/-- `sys_malloc`: the address of a fresh zeroed block, or `none` for `NULL`. -/
def sysMalloc (size : Nat) : Call (Option Ptr) := do
  let s ← state
  if s.grant s.heap.requests size then
    let p := s.heap.requests + 1
    update fun s => { s with heap := ⟨s.heap.requests + 1, p :: s.heap.live⟩ }
    pure (some p)
  else
    update fun s => { s with heap := ⟨s.heap.requests + 1, s.heap.live⟩ }
    pure none

/-- `sys_free`. -/
def sysFree (p : Ptr) : Call Unit :=
  update fun s => { s with heap := ⟨s.heap.requests, s.heap.live.erase p⟩ }

/-- The `INode` a pointer refers to. -/
def derefInode (p : Ptr) : Call INode := do
  let s ← state
  nonNull (s.inodes p)

/-- Store through a pointer to an `INode`. -/
def storeInode (p : Ptr) (inode : INode) : Call Unit :=
  update fun s => { s with inodes := Function.update s.inodes p (some inode) }

/-- The `Dir` a pointer refers to. -/
def derefDir (p : Ptr) : Call Dir := do
  let s ← state
  nonNull (s.dirs.lookup p)

/-- The control block of the running process. -/
def runningThread : Call Task := do
  let s ← state
  nonNull (s.tasks s.cur)

/-- Store to the control block of the running process. -/
def storeTask (task : Task) : Call Unit :=
  update fun s => { s with tasks := Function.update s.tasks s.cur (some task) }

/-- Store to a slot of `file_table`. -/
def storeFile (idx : Nat) (file : File) : Call Unit :=
  update fun s => { s with fileTable := Function.update s.fileTable idx file }

/-! ## Weakest preconditions of the primitives -/

/-- Every request for memory is served. -/
def HeapOk (s : Kernel) : Prop := ∀ k size, s.grant k size = true

/-- The heap after a request that is served. -/
def Heap.served (heap : Heap) : Heap := ⟨heap.requests + 1, (heap.requests + 1) :: heap.live⟩

/-- The heap after a request that is not served. -/
def Heap.refused (heap : Heap) : Heap := ⟨heap.requests + 1, heap.live⟩

@[simp] theorem Heap.served_requests (heap : Heap) : heap.served.requests = heap.requests + 1 := rfl

@[simp] theorem Heap.refused_requests (heap : Heap) :
    heap.refused.requests = heap.requests + 1 := rfl

theorem wp_sys_malloc {size : Nat} {Q : Option Ptr → Kernel → Prop} : wp ok (sysMalloc size) s Q ↔
      (s.grant s.heap.requests size = true →
        Q (some (s.heap.requests + 1)) { s with heap := s.heap.served }) ∧
      (s.grant s.heap.requests size = false → Q none { s with heap := s.heap.refused }) := by
  simp only [sysMalloc, wp_bind, wp_state, wp_ite, wp_update, wp_pure,
    Heap.served, Heap.refused, Bool.not_eq_true]

@[simp] theorem wp_sys_free : wp ok (sysFree p) s Q ↔
      Q () { s with heap := ⟨s.heap.requests, s.heap.live.erase p⟩ } := Iff.rfl

@[simp] theorem wp_deref_inode {Q : INode → Kernel → Prop} : wp ok (derefInode p) s Q ↔
      (∀ inode, s.inodes p = some inode → Q inode s) ∧ (s.inodes p = none → ok .badAccess) := by
  simp [derefInode]

@[simp] theorem wp_store_inode {inode : INode} : wp ok (storeInode p inode) s Q ↔
      Q () { s with inodes := Function.update s.inodes p (some inode) } := Iff.rfl

@[simp] theorem wp_deref_dir {Q : Dir → Kernel → Prop} : wp ok (derefDir p) s Q ↔
      (∀ d, s.dirs.lookup p = some d → Q d s) ∧ (s.dirs.lookup p = none → ok .badAccess) := by
  simp [derefDir]

@[simp] theorem wp_running_thread {Q : Task → Kernel → Prop} : wp ok runningThread s Q ↔
      (∀ task, s.tasks s.cur = some task → Q task s) ∧
      (s.tasks s.cur = none → ok .badAccess) := by
  simp [runningThread]

@[simp] theorem wp_store_task {task : Task} : wp ok (storeTask task) s Q ↔
      Q () { s with tasks := Function.update s.tasks s.cur (some task) } := Iff.rfl

@[simp] theorem wp_store_file {idx : Nat} {file : File} : wp ok (storeFile idx file) s Q ↔
      Q () { s with fileTable := Function.update s.fileTable idx file } := Iff.rfl

/-! ## The stored form of an inode -/

theorem INode.sector_set_sector (inode : INode) {k : Nat} (j : Nat) (lba : UInt32) (h : k < 13) :
    (inode.setSector k lba).sector j = if j = k then lba else inode.sector j := by
  unfold INode.sector INode.setSector
  by_cases hj : j < 13
  · simp [hj]
  · have hne : j ≠ k := by omega
    simp [hne]

/-- Two maps that agree on the 76 bytes of an inode hold the same inode. -/
theorem INode.of_bytes_congr {b c : Bytes} {off off' : Nat}
    (h : ∀ i < inodeSize, b (off + i) = c (off' + i)) :
    INode.ofBytes b off = INode.ofBytes c off' := by
  have hword : ∀ k, k + 4 ≤ inodeSize → Bytes.word b (off + k) = Bytes.word c (off' + k) := by
    intro k hk
    apply Bytes.word_congr
    intro j hj
    rw [Nat.add_assoc, Nat.add_assoc]
    exact h (k + j) (by omega)
  unfold INode.ofBytes
  congr 1
  · exact hword 0 (by decide)
  · exact hword 4 (by decide)
  · rw [hword 8 (by decide)]
  · rw [h 12 (by decide)]
  · funext k
    rw [Nat.add_assoc, Nat.add_assoc]
    exact hword (16 + 4 * k.val) (by unfold inodeSize; omega)

theorem INode.word_bytes (inode : INode) (k : Nat) :
    Bytes.word inode.bytes (4 * k) = inode.toWords k :=
  Bytes.word_words inode.toWords k

end LosKernel
