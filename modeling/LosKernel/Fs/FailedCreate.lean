import LosKernel.Fs.DirDelete
import LosKernel.Fs.FailedOpen
import LosKernel.Lib.Logged
import LosKernel.Mm.Paging

/-!
# A file creation that fails

Three exits of `file_create` leave something behind: without a free inode the buffer is not
released, without a free descriptor the file exists already, and when a directory with twelve full
blocks finds one free block, the bit of that block is left set on the disk. Two exits release the
new inode to the wrong pool: `malloc_kernal_inode` clears `pgdir` while it allocates, but
`sys_free` looks at `pgdir` again.

`Pools.fileCreate` is `fileCreate` with a log of the pool from which each block is taken and to
which it is given back.
-/

namespace LosKernel

open Prog hiding update

variable {last s : Kernel} {ok : Stop → Prop} {pgdir : Option Nat} {d p : Ptr} {name : CStr}
  {flag : UInt32} {n idx : Nat} {inode : INode}
open Function (update update_of_ne update_self)

open Mm (PoolType)

/-! ## The pools of the blocks -/

/-- The blocks that were taken from a pool, and those that were given back to one. -/
structure HeapLog where
  allocated : List (Ptr × PoolType)
  freed : List (Ptr × PoolType)

variable {Q : Int → Kernel × HeapLog → Prop} {log : HeapLog}

/-- A call that notes the pools of the blocks it takes and gives back. -/
abbrev PoolCall (α : Type) : Type := Prog Stop (Kernel × HeapLog) α

namespace Pools

/-- The pool that `sys_malloc` and `sys_free` use: that of the kernel when `pgdir` of the running
thread is `NULL`, and that of the user otherwise. -/
def poolOf : Option Nat → PoolType
  | none => .kernel
  | some _ => .user

/-- `sys_malloc`, called with the given `pgdir`. -/
def sysMalloc (pgdir : Option Nat) (size : Nat) : PoolCall (Option Ptr) := do
  match ← lift (LosKernel.sysMalloc size) with
  | none => pure none
  | some p =>
    note fun log => { log with allocated := (p, poolOf pgdir) :: log.allocated }
    pure (some p)

/-- `sys_free`, called with the given `pgdir`. -/
def sysFree (pgdir : Option Nat) (p : Ptr) : PoolCall Unit := do
  note fun log => { log with freed := (p, poolOf pgdir) :: log.freed }
  lift (LosKernel.sysFree p)

/-- `malloc_kernal_inode`: `pgdir` is `NULL` during the allocation. -/
def mallocKernalInode : PoolCall (Option Ptr) := sysMalloc none inodeSize

/-- `sys_free` of an in-memory inode. -/
def freeInode (pgdir : Option Nat) (p : Ptr) : PoolCall Unit := do
  lift (Prog.update fun s => { s with inodes := update s.inodes p none })
  sysFree pgdir p

/-- The last steps of `file_create`, once the entry is in the directory. -/
def finishCreate (pgdir : Option Nat) (parentDir : Ptr) (inodeNo : UInt32)
    (newFileInode ioBuf : Ptr) (fdIdx : Nat) : PoolCall Int := do
  let parentInode ← lift (dirInode parentDir)
  lift (inodeSync parentInode 1024)
  let inode ← lift (derefInode newFileInode)
  lift (inodeSync inode 1024)
  lift (bitmapSync inodeNo .inode)
  lift (Prog.update fun s => { s with openInodes := newFileInode :: s.openInodes })
  let inode ← lift (derefInode newFileInode)
  lift (storeInode newFileInode { inode with iOpenCnts := 1 })
  sysFree pgdir ioBuf
  lift (pcbFdInstall fdIdx)

/-- `file_create`, called by a thread with the given `pgdir`. -/
def fileCreate (pgdir : Option Nat) (parentDir : Ptr) (filename : CStr) (flag : UInt32) :
    PoolCall Int := do
  match ← sysMalloc pgdir 1024 with
  | none => pure (-1)
  | some ioBuf =>
    match ← lift inodeBitmapAlloc with
    | none => pure (-1)
    | some inodeNo =>
      match ← mallocKernalInode with
      | none =>
        lift (inodeBitmapSet inodeNo false)
        sysFree pgdir ioBuf
        pure (-1)
      | some newFileInode =>
        lift (storeInode newFileInode (inodeInit inodeNo))
        match ← lift getFreeSlotInGlobal with
        | none =>
          freeInode pgdir newFileInode
          lift (inodeBitmapSet inodeNo false)
          sysFree pgdir ioBuf
          pure (-1)
        | some fdIdx =>
          lift (storeFile fdIdx ⟨0, flag, some newFileInode⟩)
          let e ← lift (createDirEntry filename inodeNo .regular)
          if ← lift (syncDirEntry parentDir e) then
            finishCreate pgdir parentDir inodeNo newFileInode ioBuf fdIdx
          else
            lift (storeFile fdIdx ⟨0, 0, none⟩)
            freeInode pgdir newFileInode
            lift (inodeBitmapSet inodeNo false)
            sysFree pgdir ioBuf
            pure (-1)

theorem sys_malloc_erases (pgdir : Option Nat) (size : Nat) :
    Erases (sysMalloc pgdir size) (LosKernel.sysMalloc size) := by
  intro s
  rw [sysMalloc, bind_run]
  cases h : LosKernel.sysMalloc size s.1 with
  | stop reason => rw [lift_stop h, Outcome.dropLog]
  | done r last =>
    rw [lift_done h]
    cases r <;> rfl

theorem sys_free_erases (pgdir : Option Nat) (p : Ptr) :
    Erases (sysFree pgdir p) (LosKernel.sysFree p) := (erases_lift _).note

theorem free_inode_erases (pgdir : Option Nat) (p : Ptr) :
    Erases (freeInode pgdir p) (LosKernel.freeInode p) :=
  (erases_lift _).bind fun _ => sys_free_erases pgdir p

theorem finish_create_erases (pgdir : Option Nat) (parentDir : Ptr) (inodeNo : UInt32)
    (newFileInode ioBuf : Ptr) (fdIdx : Nat) :
    Erases (finishCreate pgdir parentDir inodeNo newFileInode ioBuf fdIdx)
      (LosKernel.finishCreate parentDir inodeNo newFileInode ioBuf fdIdx) :=
  (erases_lift _).bind fun _ => (erases_lift _).bind fun _ =>
    (erases_lift _).bind fun _ => (erases_lift _).bind fun _ =>
    (erases_lift _).bind fun _ => (erases_lift _).bind fun _ =>
    (erases_lift _).bind fun _ => (erases_lift _).bind fun _ =>
    (sys_free_erases _ _).bind fun _ => erases_lift _

/-- Without the log, the call is `file_create`. -/
theorem file_create_erases (pgdir : Option Nat) (parentDir : Ptr) (filename : CStr)
    (flag : UInt32) : Erases (fileCreate pgdir parentDir filename flag)
      (LosKernel.fileCreate parentDir filename flag) := by
  refine (sys_malloc_erases pgdir 1024).bind fun ioBuf => ?_
  cases ioBuf with
  | none => exact erases_pure _
  | some ioBuf =>
    refine (erases_lift _).bind fun inodeNo => ?_
    cases inodeNo with
    | none => exact erases_pure _
    | some inodeNo =>
      have hfail : Erases
          (do
            lift (inodeBitmapSet inodeNo false)
            sysFree pgdir ioBuf
            pure (-1) : PoolCall Int)
          (do
            inodeBitmapSet inodeNo false
            LosKernel.sysFree ioBuf
            pure (-1)) :=
        (erases_lift _).bind fun _ => (sys_free_erases _ _).bind fun _ =>
          erases_pure _
      refine (sys_malloc_erases none inodeSize).bind fun newFileInode => ?_
      cases newFileInode with
      | none => exact hfail
      | some newFileInode =>
        refine (erases_lift _).bind fun _ => (erases_lift _).bind fun fdIdx => ?_
        cases fdIdx with
        | none => exact (free_inode_erases _ _).bind fun _ => hfail
        | some fdIdx =>
          refine (erases_lift _).bind fun _ => (erases_lift _).bind fun e =>
            (erases_lift _).bind fun synced => ?_
          split
          · exact finish_create_erases _ _ _ _ _ _
          · exact (erases_lift _).bind fun _ => (free_inode_erases _ _).bind fun _ => hfail

theorem wp_sys_malloc {size : Nat} {Q : Option Ptr → Kernel × HeapLog → Prop} :
    wp ok (sysMalloc pgdir size) (s, log) Q ↔
      (s.grant s.heap.requests size = true → Q (some (s.heap.requests + 1))
        ({ s with heap := s.heap.served },
          { log with allocated := (s.heap.requests + 1, poolOf pgdir) :: log.allocated })) ∧
      (s.grant s.heap.requests size = false → Q none ({ s with heap := s.heap.refused }, log)) := by
  rw [sysMalloc, wp_bind, wp_lift, LosKernel.wp_sys_malloc]
  rfl

@[simp] theorem wp_sys_free {Q : Unit → Kernel × HeapLog → Prop} :
    wp ok (sysFree pgdir p) (s, log) Q ↔
      Q () ({ s with heap := ⟨s.heap.requests, s.heap.live.erase p⟩ },
        { log with freed := (p, poolOf pgdir) :: log.freed }) := Iff.rfl

end Pools

/-! ## What a failed creation leaves -/

/-- Every slot of `file_table` that was in use holds what it held, and no other slot is in use. -/
def SlotsKept (s last : Kernel) : Prop :=
  ∀ idx, (last.fileTable idx).fdInode = (s.fileTable idx).fdInode ∧
    ((s.fileTable idx).fdInode ≠ none → last.fileTable idx = s.fileTable idx)

/-- The entries of the directory that `d` refers to. -/
def entriesOf (s : Kernel) (d : Ptr) : Option (Multiset DirEntry) :=
  ((s.dirs.lookup d).bind fun dir => s.inodes dir.inode).map (entries s)

/-- A byte of the disk belongs to one of the two bitmaps. -/
def InBitmaps (sb : SuperBlock) (x : Nat) : Prop :=
  512 * sb.blockBitmapLba.toNat ≤ x ∧
    x < 512 * (sb.blockBitmapLba.toNat + sb.blockBitmapSects.toNat) ∨
  512 * sb.inodeBitmapLba.toNat ≤ x ∧
    x < 512 * (sb.inodeBitmapLba.toNat + sb.inodeBitmapSects.toNat)

/-- The directory, the bitmaps in memory and on the disk, `file_table`, `open_inodes` and the heap
are those of `s`, and what was given back went to the pool it came from. -/
structure CreateRolledBack (s : Kernel) (d : Ptr) (last : Kernel) (log : HeapLog) : Prop where
  entries : entriesOf last d = entriesOf s d
  inodeBits : last.part.inodeBitmap = s.part.inodeBitmap
  blockBits : last.part.blockBitmap = s.part.blockBitmap
  diskBits : ∀ x, InBitmaps s.part.sb x → last.disk x = s.disk x
  files : SlotsKept s last
  openInodes : last.openInodes = s.openInodes
  heap : last.heap.live = s.heap.live
  pools : ∀ block ∈ log.freed, block ∈ log.allocated

/-- What is expected of a `file_create` that fails. -/
def CreateRollsBack (s : Kernel) (pgdir : Option Nat) (d : Ptr) (name : CStr) (flag : UInt32) :
    Prop :=
  ∀ last log, Pools.fileCreate pgdir d name flag (s, ⟨[], []⟩) = .done (-1) (last, log) →
    CreateRolledBack s d last log

/-- A call that returns -1 rolls back if the state it leaves is rolled back. -/
theorem rolls_back_iff_of_run (h : wp never (Pools.fileCreate pgdir d name flag) (s, ⟨[], []⟩)
      fun r fin => r = -1 ∧ fin = (last, log)) :
    CreateRollsBack s pgdir d name flag ↔ CreateRolledBack s d last log := by
  obtain ⟨r, fin, hrun, rfl, rfl⟩ := wp_never_iff.1 h
  constructor
  · exact fun hback => hback last log hrun
  · intro hback last' log' hrun'
    cases hrun.symm.trans hrun'
    exact hback

/-- The kernel after an exit that gives back all memory. -/
def retired (s : Kernel) : Kernel := { s with heap := ⟨s.heap.requests + 2, s.heap.live⟩ }

/-- Only the heap differs, and no block is in use that was not. -/
theorem CreateRolledBack.of_heap {heap : Heap} (hlive : heap.live = s.heap.live)
    (hpools : ∀ block ∈ log.freed, block ∈ log.allocated) :
    CreateRolledBack s d { s with heap := heap } log where
  entries := rfl
  inodeBits := rfl
  blockBits := rfl
  diskBits _ _ := rfl
  files _ := ⟨rfl, fun _ => rfl⟩
  openInodes := rfl
  heap := hlive
  pools := hpools

theorem create_without_buffer (hbuf : s.grant s.heap.requests 1024 = false) :
    CreateRollsBack s pgdir d name flag := by
  have hrun : wp never (Pools.fileCreate pgdir d name flag) (s, ⟨[], []⟩)
      fun r fin => r = -1 ∧ fin = ({ s with heap := s.heap.refused }, ⟨[], []⟩) := by
    rw [Pools.fileCreate, wp_bind, Pools.wp_sys_malloc]
    exact ⟨fun h => absurd (h.symm.trans hbuf) (by simp), fun _ => ⟨rfl, rfl⟩⟩
  exact (rolls_back_iff_of_run hrun).2 (.of_heap rfl (by simp))

/-- There is no free inode: the buffer is not released. -/
theorem create_without_inode (hbuf : s.grant s.heap.requests 1024 = true)
    (hscan : bitmapScan s.part.inodeBitmap 1 = none) :
    ¬CreateRollsBack s pgdir d name flag := by
  have hrun : wp never (Pools.fileCreate pgdir d name flag) (s, ⟨[], []⟩)
      fun r fin => r = -1 ∧ fin = ({ s with heap := s.heap.served },
        ⟨[(s.heap.requests + 1, Pools.poolOf pgdir)], []⟩) := by
    rw [Pools.fileCreate, wp_bind, Pools.wp_sys_malloc]
    refine ⟨fun _ => ?_, fun h => absurd (h.symm.trans hbuf) (by simp)⟩
    rw [wp_bind, wp_lift, wp_inode_bitmap_alloc]
    exact ⟨fun _ => ⟨rfl, rfl⟩, fun n h => absurd (h.symm.trans hscan) (by simp)⟩
  rw [rolls_back_iff_of_run hrun]
  intro hback
  have hlen := congrArg List.length hback.heap
  simp [Heap.served] at hlen

/-- The file on its way into the tables: the inode `n` is taken, it is in memory at the last block
of the heap, and the slot `idx` refers to it. -/
def stagedCreate (s : Kernel) (n idx : Nat) (flag : UInt32) : Kernel :=
  staged ({ s with heap := s.heap.served.served }.setInodeBit n true) (s.heap.requests + 2)
    (inodeInit (UInt32.ofNat n)) idx ⟨0, flag, some (s.heap.requests + 2)⟩

/-- The rollback after a failed `sync_dir_entry` in the state `mid`. -/
def unstagedCreate (s mid : Kernel) (n idx : Nat) : Kernel :=
  { mid.setInodeBit n false with
    fileTable := update mid.fileTable idx ⟨0, 0, none⟩
    inodes := update mid.inodes (s.heap.requests + 2) none
    heap := ⟨mid.heap.requests,
      (mid.heap.live.erase (s.heap.requests + 2)).erase (s.heap.requests + 1)⟩ }

/-- The log once the inode is allocated. -/
def stagedLog (s : Kernel) (pgdir : Option Nat) : HeapLog :=
  ⟨[(s.heap.requests + 2, .kernel), (s.heap.requests + 1, Pools.poolOf pgdir)], []⟩

/-- The log after a rollback that releases the inode. -/
def rollbackLog (s : Kernel) (pgdir : Option Nat) : HeapLog :=
  { stagedLog s pgdir with
    freed := [(s.heap.requests + 1, Pools.poolOf pgdir),
      (s.heap.requests + 2, Pools.poolOf pgdir)] }

/-- `file_create` with a buffer and an inode number: memory for the inode is refused, or the file
table is full, or the entry is written. -/
theorem wp_create_numbered (hc : CacheOk s) (hlen : 8 * s.part.inodeBitmap.btmpBytesLen ≤ 2 ^ 32)
    (hbuf : s.grant s.heap.requests 1024 = true) (hscan : bitmapScan s.part.inodeBitmap 1 = some n)
    (hrefused : s.grant (s.heap.requests + 1) inodeSize = false →
      Q (-1) (retired s, ⟨[(s.heap.requests + 1, Pools.poolOf pgdir)],
        [(s.heap.requests + 1, Pools.poolOf pgdir)]⟩))
    (hfull : s.grant (s.heap.requests + 1) inodeSize = true →
      findSlot s.fileTable (maxFileOpen - 3) 3 = none → Q (-1) (retired s, rollbackLog s pgdir))
    (hslot : s.grant (s.heap.requests + 1) inodeSize = true →
      ∀ idx, findSlot s.fileTable (maxFileOpen - 3) 3 = some idx →
      wp ok (createDirEntry name (UInt32.ofNat n) .regular) (stagedCreate s n idx flag)
        fun e mid => wp ok (syncDirEntry d e) mid fun r mid =>
          (r = true → wp ok (Pools.finishCreate pgdir d (UInt32.ofNat n)
            (s.heap.requests + 2) (s.heap.requests + 1) idx) (mid, stagedLog s pgdir) Q) ∧
          (r = false → mid.part.inodeBitmap.btmpBytesLen = s.part.inodeBitmap.btmpBytesLen ∧
            Q (-1) (unstagedCreate s mid n idx, rollbackLog s pgdir))) :
    wp ok (Pools.fileCreate pgdir d name flag) (s, ⟨[], []⟩) Q := by
  obtain ⟨hn, hclear, -⟩ := bitmap_scan_one_eq_some _ hscan
  have hundo := bitmap_set_undo s.part.inodeBitmap true hclear
  have hback : update s.inodes (s.heap.requests + 1 + 1) none = s.inodes := by
    rw [← hc.fresh (s.heap.requests + 1 + 1) (by omega), Function.update_eq_self]
  rw [Pools.fileCreate, wp_bind, Pools.wp_sys_malloc]
  refine ⟨fun _ => ?_, fun h => absurd (h.symm.trans hbuf) (by simp)⟩
  rw [wp_bind, wp_lift, wp_inode_bitmap_alloc]
  refine ⟨fun h => absurd (h.symm.trans hscan) (by simp), fun n' hscan' => ?_⟩
  obtain rfl : n = n' := Option.some.inj (hscan.symm.trans hscan')
  rw [wp_bind, Pools.mallocKernalInode, Pools.wp_sys_malloc]
  constructor
  · intro hserved
    simp only [wp_bind, wp_lift, wp_store_inode, getFreeSlotInGlobal, wp_state, wp_pure]
    cases hfind : findSlot s.fileTable (maxFileOpen - 3) 3 with
    | none =>
      simp only [wp_bind, wp_lift]
      refine wp_set_inode_bit hn hlen ?_
      convert hfull hserved hfind using 2
      simp [Kernel.setInodeBit, hundo, retired, Heap.served, hback, rollbackLog, stagedLog,
        Pools.poolOf]
    | some idx =>
      simp only [wp_bind, wp_lift, wp_store_file]
      refine wp_mono (hslot hserved idx hfind) fun e mid hentry => ?_
      refine wp_mono hentry fun r mid hr => ?_
      cases r with
      | true => exact hr.1 rfl
      | false =>
        obtain ⟨hbits, hQ⟩ := hr.2 rfl
        rw [if_neg Bool.false_ne_true]
        simp only [wp_bind, wp_lift]
        exact wp_set_inode_bit (by rw [hbits]; exact hn) (by rw [hbits]; exact hlen) hQ
  · intro hno
    rw [wp_bind, wp_lift]
    refine wp_set_inode_bit hn hlen ?_
    simpa [Kernel.setInodeBit, hundo, retired, Heap.served, Heap.refused] using hrefused hno

/-- The rollback gives the inode back to the pool of the running thread, which is the right one
only for a kernel thread. -/
theorem rollback_log_pools :
    (∀ block ∈ (rollbackLog s pgdir).freed, block ∈ (rollbackLog s pgdir).allocated) ↔
      pgdir = none := by
  cases pgdir with
  | none => simp [rollbackLog, stagedLog, Pools.poolOf]
  | some dir => simp [rollbackLog, stagedLog, Pools.poolOf]

section

variable (hc : CacheOk s) (hlen : 8 * s.part.inodeBitmap.btmpBytesLen ≤ 2 ^ 32)
  (hbuf : s.grant s.heap.requests 1024 = true) (hscan : bitmapScan s.part.inodeBitmap 1 = some n)

include hc hlen hbuf hscan

theorem create_without_memory (hmem : s.grant (s.heap.requests + 1) inodeSize = false) :
    CreateRollsBack s pgdir d name flag := by
  have hno : ¬s.grant (s.heap.requests + 1) inodeSize = true := by simp [hmem]
  exact (rolls_back_iff_of_run (wp_create_numbered hc hlen hbuf hscan (fun _ => ⟨rfl, rfl⟩)
    (fun h => absurd h hno) fun h => absurd h hno)).2 (.of_heap rfl (by simp))

theorem create_without_slot (hmem : s.grant (s.heap.requests + 1) inodeSize = true)
    (hfull : findSlot s.fileTable (maxFileOpen - 3) 3 = none) :
    CreateRollsBack s pgdir d name flag ↔ pgdir = none := by
  rw [rolls_back_iff_of_run (wp_create_numbered hc hlen hbuf hscan
    (fun h => absurd (h.symm.trans hmem) (by simp)) (fun _ _ => ⟨rfl, rfl⟩)
    fun _ idx h => absurd (h.symm.trans hfull) (by simp))]
  exact ⟨fun hback => rollback_log_pools.1 hback.pools,
    fun hkernel => .of_heap rfl (rollback_log_pools.2 hkernel)⟩

/-- The name is too long for an entry: the kernel stops. -/
theorem create_with_long_name (hmem : s.grant (s.heap.requests + 1) inodeSize = true)
    (hslot : findSlot s.fileTable (maxFileOpen - 3) 3 = some idx) (hname : ¬name.length ≤ 16) :
    CreateRollsBack s pgdir d name flag := by
  have hrun : wp any (Pools.fileCreate pgdir d name flag) (s, ⟨[], []⟩)
      fun _ _ => False := by
    refine wp_create_numbered hc hlen hbuf hscan (fun h => absurd (h.symm.trans hmem) (by simp))
      (fun _ h => absurd (h.symm.trans hslot) (by simp)) fun _ _ _ => ?_
    simp only [createDirEntry, wp_bind, wp_assert]
    exact ⟨fun h => absurd (of_decide_eq_true h) hname, fun _ => trivial⟩
  exact fun last log h => (wp_any_iff.1 hrun _ _ h).elim

end

theorem EntrySynced.areas {e : DirEntry} {r : Bool} (h : EntrySynced s p inode e r last)
    (ha : Areas s.part) : Areas last.part := by
  cases h with
  | placed k j hk hfull hused hfree hr hlast => exact hlast ▸ ha
  | added k i hk hfull hunused hscan hr hlast => exact hlast ▸ ha.of_bits rfl rfl
  | refused k hk hfull hunused hscan hr hlast => exact hlast ▸ ha
  | tabled i i' hfull hscan hscan' hr hlast => exact hlast ▸ ha.of_bits rfl rfl
  | lost i hfull hscan hscan' hr hlast => exact hlast ▸ ha.of_bits rfl rfl

/-- The last steps of `file_create` for a process without a free descriptor: the call fails, and the
inode is in `open_inodes`. -/
theorem finish_create_full {q ioBuf : Ptr} {n : UInt32} {dir : Dir} {parent new : INode}
    (ha : Areas s.part) (hdir : s.dirs.lookup d = some dir)
    (hparent : s.inodes dir.inode = some parent) (hnew : s.inodes q = some new)
    (hn : n.toNat < 8 * s.part.inodeBitmap.btmpBytesLen) (hfd : ¬FdFree s) :
    wp never (finishCreate d n q ioBuf idx) s fun r last =>
      r = -1 ∧ last.openInodes = q :: s.openInodes := by
  obtain ⟨task, htask, hnone⟩ := not_fd_free_iff.1 hfd
  have hbuf : ∀ pos : INodePosition, 512 * pos.secCnt ≤ 1024 := by
    intro pos
    rcases sec_cnt_cases pos with hcnt | hcnt <;> omega
  simp only [finishCreate, dirInode, wp_bind, wp_deref_dir, wp_deref_inode, hdir, hparent, of_some]
  refine (wp_of_done (inode_sync_run ha.table (hbuf _))).2 ?_
  simp only [storeRecord, hnew, of_some]
  refine (wp_of_done (inode_sync_run ?_ (hbuf _))).2 ?_
  · exact ha.table
  refine wp_sync_inode ?_ hn ?_
  · exact ha
  simp only [storeRecord, Kernel.syncInodeBits, wp_update, hnew, of_some, and_true, wp_store_inode,
    wp_sys_free, pcbFdInstall, wp_bind, wp_running_thread, htask, hnone, wp_pure]

/-- The directory `d` is open with the inode `inode`, the file system is well-formed, and the block
bitmap on the disk is the one in memory. -/
structure CreateReady (s : Kernel) (d p : Ptr) (inode : INode) : Prop
    extends OpenDir s d p inode where
  cache : CacheOk s
  inodeBits : 8 * s.part.inodeBitmap.btmpBytesLen ≤ 2 ^ 32
  synced : ∀ k < s.part.blockBitmap.btmpBytesLen,
    s.disk (512 * s.part.sb.blockBitmapLba.toNat + k) = s.part.blockBitmap.bits k

section

variable (h : CreateReady s d p inode)

include h

theorem CreateReady.old : p ≤ s.heap.requests := by
  by_contra hlt
  exact absurd (h.memory.symm.trans (h.cache.fresh p (Nat.lt_of_not_le hlt))) (by simp)

theorem CreateReady.with_file_table (table : Nat → File) :
    CreateReady { s with fileTable := table } d p inode where
  blocks := h.blocks
  dir := h.dir
  memory := h.memory
  contents := { h.contents with }
  cache := ⟨h.cache.fresh, h.cache.counted⟩
  inodeBits := h.inodeBits
  synced := h.synced

theorem CreateReady.staged (n idx : Nat) (flag : UInt32) :
    OpenDir (stagedCreate s n idx flag) d p inode where
  blocks := ⟨h.blocks.areas.of_bits rfl rfl, h.blocks.root, h.blocks.inRange⟩
  dir := h.dir
  memory := by
    have hne : p ≠ s.heap.requests + 2 :=
      Nat.ne_of_lt (Nat.lt_succ_of_le (Nat.le_succ_of_le h.old))
    exact (update_of_ne hne ..).trans h.memory
  contents := { h.contents with }

/-- `file_create` from the point on at which the file is staged. -/
theorem CreateReady.wp_staged (hbuf : s.grant s.heap.requests 1024 = true)
    (hscan : bitmapScan s.part.inodeBitmap 1 = some n)
    (hmem : s.grant (s.heap.requests + 1) inodeSize = true)
    (hslot : findSlot s.fileTable (maxFileOpen - 3) 3 = some idx) (hname : name.length ≤ 16)
    (hQ : ∀ e : DirEntry, ∀ r mid, EntrySynced (stagedCreate s n idx flag) p inode e r mid →
      FsFrame (stagedCreate s n idx flag) mid →
      (r = true → wp ok (Pools.finishCreate pgdir d (UInt32.ofNat n) (s.heap.requests + 2)
        (s.heap.requests + 1) idx) (mid, stagedLog s pgdir) Q) ∧
      (r = false → Q (-1) (unstagedCreate s mid n idx, rollbackLog s pgdir))) :
    wp ok (Pools.fileCreate pgdir d name flag) (s, ⟨[], []⟩) Q := by
  refine wp_create_numbered h.cache h.inodeBits hbuf hscan
    (fun hno => absurd (hno.symm.trans hmem) (by simp))
    (fun _ hno => absurd (hno.symm.trans hslot) (by simp)) fun _ idx' hslot' => ?_
  obtain rfl : idx = idx' := Option.some.inj (hslot.symm.trans hslot')
  simp only [createDirEntry, wp_bind, wp_assert, maxFileNameLen, hname, decide_true,
    of_true, wp_pure]
  refine wp_mono (wp_and_any (wp_of_never ((h.staged n idx flag).sync_spec
    (live_eq_true.2 (show FileType.regular.code ≠ 0 by decide)))) (keeps_sync_dir_entry _ _ _)) ?_
  rintro r mid ⟨hsynced, hframe⟩
  obtain ⟨hdone, hfail⟩ := hQ _ r mid hsynced hframe
  refine ⟨hdone, fun hr => ⟨?_, hfail hr⟩⟩
  rw [hframe.inode_bitmap_eq]
  rfl

/-- What a rollback leaves when `sync_dir_entry` has changed nothing. -/
theorem CreateReady.unstaged (hscan : bitmapScan s.part.inodeBitmap 1 = some n)
    (hslot : findSlot s.fileTable (maxFileOpen - 3) 3 = some idx) (log : HeapLog) :
    CreateRolledBack s d (unstagedCreate s (stagedCreate s n idx flag) n idx) log ↔
      ∀ block ∈ log.freed, block ∈ log.allocated := by
  obtain ⟨-, hclear, -⟩ := bitmap_scan_one_eq_some _ hscan
  have hfree := ((find_slot_is_search _).eq_some _ _ hslot).2.2
  have hinodes : update (update s.inodes (s.heap.requests + 2)
      (some (inodeInit (UInt32.ofNat n)))) (s.heap.requests + 2) none = s.inodes := by
    rw [Function.update_idem, ← h.cache.fresh (s.heap.requests + 2)
      (Nat.lt_add_of_pos_right (by decide)), Function.update_eq_self]
  refine ⟨fun hback => hback.pools, fun hpools => ?_⟩
  refine ⟨?_, bitmap_set_undo _ true hclear, rfl, fun _ _ => rfl, fun idx' => ?_, rfl, ?_, hpools⟩
  · show ((s.dirs.lookup d).bind fun dir => (update (update s.inodes
      (s.heap.requests + 2) (some (inodeInit (UInt32.ofNat n)))) (s.heap.requests + 2) none)
      dir.inode).map (entries s) = _
    rw [hinodes]
    rfl
  · show ((update (update s.fileTable idx _) idx ⟨0, 0, none⟩) idx').fdInode = _ ∧
      (_ → update (update s.fileTable idx _) idx ⟨0, 0, none⟩ idx' = _)
    rw [Function.update_idem]
    by_cases hidx : idx' = idx
    · rw [hidx, update_self]
      exact ⟨hfree.symm, fun hused => absurd hfree hused⟩
    · rw [update_of_ne hidx]
      exact ⟨rfl, fun _ => rfl⟩
  · show ((s.heap.served.served.live.erase (s.heap.requests + 2)).erase _) = _
    simp [Heap.served]

/-- The block that the failed `sync_dir_entry` took and gave back in memory only. -/
theorem CreateReady.lost_bit (n idx : Nat) (flag : UInt32) {i : Nat}
    (hi : i < 8 * s.part.blockBitmap.btmpBytesLen)
    (hclear : bitmapScanTest s.part.blockBitmap i = false) :
    ((stagedCreate s n idx flag).takeBlock i).disk
        (512 * s.part.sb.blockBitmapLba.toNat + i / 8) ≠
      s.disk (512 * s.part.sb.blockBitmapLba.toNat + i / 8) := by
  have hbyte : i / 8 < s.part.blockBitmap.btmpBytesLen := by omega
  have hwritten : ((stagedCreate s n idx flag).takeBlock i).disk
      (512 * s.part.sb.blockBitmapLba.toNat + i / 8) =
        (bitmapSet s.part.blockBitmap i true).bits (i / 8) := by
    show Bytes.blit s.disk (512 * (s.part.sb.blockBitmapLba.toNat + i / 4096))
      (Bytes.shift (bitmapSet s.part.blockBitmap i true).bits (512 * (i / 4096))) 512 _ = _
    rw [Bytes.blit_inside (by omega) (by omega)]
    unfold Bytes.shift
    congr 1
    omega
  rw [hwritten, h.synced _ hbyte]
  intro heq
  have hset : bitmapScanTest (bitmapSet s.part.blockBitmap i true) i = true := by
    simp [scan_test_bitmap_set]
  rw [bitmapScanTest, heq] at hset
  exact Bool.noConfusion (hclear.symm.trans hset)

section

variable (hbuf : s.grant s.heap.requests 1024 = true)
  (hscan : bitmapScan s.part.inodeBitmap 1 = some n)
  (hmem : s.grant (s.heap.requests + 1) inodeSize = true)
  (hslot : findSlot s.fileTable (maxFileOpen - 3) 3 = some idx) (hname : name.length ≤ 16)

include hbuf hscan hmem hslot hname

theorem CreateReady.without_place (hroom : ¬HasRoom s inode) (hgrow : CannotGrow s inode) :
    CreateRollsBack s pgdir d name flag ↔ pgdir = none ∧ s.part.blockBitmap.free = 0 := by
  have hfails : ∀ e r mid, EntrySynced (stagedCreate s n idx flag) p inode e r mid → r = false :=
    fun e r mid hsynced => hsynced.failed_iff.2 ⟨hroom, hgrow⟩
  have hcount := s.part.blockBitmap.free_eq_zero_iff
  by_cases hfree : s.part.blockBitmap.free = 0
  · have hrun : wp never (Pools.fileCreate pgdir d name flag) (s, ⟨[], []⟩) fun r fin =>
        r = -1 ∧ fin = (unstagedCreate s (stagedCreate s n idx flag) n idx,
          rollbackLog s pgdir) := by
      refine h.wp_staged hbuf hscan hmem hslot hname fun e r mid hsynced _ => ?_
      obtain rfl := hfails e r mid hsynced
      refine ⟨fun hr => Bool.noConfusion hr, fun _ => ⟨rfl, ?_⟩⟩
      rcases hsynced.of_failed with ⟨-, hlast⟩ | ⟨i, hscan, -⟩
      · rw [hlast]
      · exact absurd (hscan.symm.trans (hcount.1 hfree)) (by simp)
    rw [rolls_back_iff_of_run hrun, h.unstaged hscan hslot, rollback_log_pools]
    exact ⟨fun hkernel => ⟨hkernel, hfree⟩, fun hkernel => hkernel.1⟩
  · refine iff_of_false (fun hback => ?_) fun hkernel => hfree hkernel.2
    have hrun : wp never (Pools.fileCreate pgdir d name flag) (s, ⟨[], []⟩) fun r fin =>
        r = -1 ∧ ¬CreateRolledBack s d fin.1 fin.2 := by
      refine h.wp_staged hbuf hscan hmem hslot hname fun e r mid hsynced _ => ?_
      obtain rfl := hfails e r mid hsynced
      refine ⟨fun hr => Bool.noConfusion hr, fun _ => ⟨rfl, fun hback => ?_⟩⟩
      rcases hsynced.of_failed with ⟨hscan, -⟩ | ⟨i, hscan, hlast⟩
      · exact hfree (hcount.2 hscan)
      · obtain ⟨hi, hclear, -⟩ := bitmap_scan_one_eq_some _ hscan
        have hlen := h.blocks.areas.blockLen
        have hi' : i < 8 * s.part.blockBitmap.btmpBytesLen := hi
        refine h.lost_bit n idx flag hi' hclear ?_
        have hsame := hback.diskBits (512 * s.part.sb.blockBitmapLba.toNat + i / 8)
          (.inl ⟨by omega, by omega⟩)
        rw [hlast] at hsame
        exact hsame
    obtain ⟨r, ⟨last, log⟩, hdone, rfl, hnot⟩ := wp_never_iff.1 hrun
    exact hnot (hback last log hdone)

/-- The entry is written, and a descriptor is needed. -/
theorem CreateReady.without_descriptor (hplace : ¬(¬HasRoom s inode ∧ CannotGrow s inode)) :
    CreateRollsBack s pgdir d name flag ↔ FdFree s := by
  have hwritten : ∀ e r mid, EntrySynced (stagedCreate s n idx flag) p inode e r mid →
      r = true := by
    intro e r mid hsynced
    cases r with
    | true => rfl
    | false => exact absurd (hsynced.failed_iff.1 rfl) hplace
  have hnone : ({ s with heap := s.heap.served.served }.setInodeBit n true).inodes
      (s.heap.requests + 2) = none :=
    h.cache.fresh _ (Nat.lt_add_of_pos_right (by decide))
  by_cases hfd : FdFree s
  · refine iff_of_true (fun last log hdone => ?_) hfd
    have hrun : wp any (Pools.fileCreate pgdir d name flag) (s, ⟨[], []⟩)
        fun r _ => r ≠ -1 := by
      refine h.wp_staged hbuf hscan hmem hslot hname fun e r mid hsynced hframe => ?_
      obtain rfl := hwritten e r mid hsynced
      refine ⟨fun _ => ?_, fun hr => Bool.noConfusion hr⟩
      refine wp_mono ((Pools.finish_create_erases _ _ _ _ _ _).wp
        (finish_create_spec hnone rfl hframe)) ?_
      intro r fin ⟨base, inode', tasks, _, _, _, hinstall, _⟩
      exact hinstall.ne_of_fd_free (show FdFree _ from hfd)
    exact absurd rfl (wp_any_iff.1 hrun _ _ hdone)
  · refine iff_of_false (fun hback => ?_) hfd
    have hrun : wp never (Pools.fileCreate pgdir d name flag) (s, ⟨[], []⟩) fun r fin =>
        r = -1 ∧ fin.1.openInodes = (s.heap.requests + 2) :: s.openInodes := by
      refine h.wp_staged hbuf hscan hmem hslot hname fun e r mid hsynced hframe => ?_
      obtain rfl := hwritten e r mid hsynced
      refine ⟨fun _ => ?_, fun hr => Bool.noConfusion hr⟩
      have hopen := h.staged n idx flag
      obtain ⟨dir, hdir, rfl⟩ := hopen.dir
      obtain ⟨parent, hparent, -⟩ := hframe.handle.inode_of_eq_some hopen.memory
      obtain ⟨new, hnew, -⟩ := hframe.handle.inode_of_eq_some (update_self ..)
      have hfull : ¬FdFree mid := by
        rw [hframe.rest]
        exact hfd
      have hn : (UInt32.ofNat n).toNat < 8 * mid.part.inodeBitmap.btmpBytesLen := by
        rw [hframe.inode_bitmap_eq]
        exact Nat.lt_of_le_of_lt (Nat.mod_le ..) (bitmap_scan_one_eq_some _ hscan).1
      refine wp_mono ((Pools.finish_create_erases _ _ _ _ _ _).wp
        (finish_create_full (hsynced.areas hopen.blocks.areas) ?_ hparent hnew hn hfull)) ?_
      · rw [hframe.handle.dirs_eq]
        exact hdir
      · intro r fin ⟨hr, hlast⟩
        rw [hframe.handle.open_inodes_eq] at hlast
        exact ⟨hr, hlast⟩
    obtain ⟨r, ⟨last, log⟩, hdone, rfl, hopen⟩ := wp_never_iff.1 hrun
    have hlen := congrArg List.length (hopen.symm.trans (hback last log hdone).openInodes)
    simp at hlen

end

end

/-! ## All exits -/

/-- `file_create` gets its buffer, an inode number and memory for the inode. -/
structure Supplied (s : Kernel) : Prop where
  buffer : s.grant s.heap.requests 1024 = true
  number : s.part.inodeBitmap.free ≠ 0
  memory : s.grant (s.heap.requests + 1) inodeSize = true

/-- The exits of `file_create` that leave something behind, for a thread with the given `pgdir`
that creates a file `name` in the directory `inode`. -/
inductive LeavesTraces (s : Kernel) (pgdir : Option Nat) (inode : INode) (name : CStr) : Prop where
  | noInode (hbuf : s.grant s.heap.requests 1024 = true) (hinodes : s.part.inodeBitmap.free = 0)
  | noSlot (hsupply : Supplied s) (hfull : TableFull s) (huser : pgdir ≠ none)
  | noPlace (hsupply : Supplied s) (hslot : ¬TableFull s) (hname : name.length ≤ 16)
      (hroom : ¬HasRoom s inode) (hgrow : CannotGrow s inode)
      (hcause : pgdir ≠ none ∨ s.part.blockBitmap.free ≠ 0)
  | noDescriptor (hsupply : Supplied s) (hslot : ¬TableFull s) (hname : name.length ≤ 16)
      (hplace : ¬(¬HasRoom s inode ∧ CannotGrow s inode)) (hfd : ¬FdFree s)

/-- A `file_create` that fails rolls back exactly if it does not take one of the four exits that
leave something behind. -/
theorem file_create_rolls_back_iff {s : Kernel} {d p : Ptr} {inode : INode}
    (h : CreateReady s d p inode) (pgdir : Option Nat) (name : CStr) (flag : UInt32) :
    CreateRollsBack s pgdir d name flag ↔ ¬LeavesTraces s pgdir inode name := by
  have hinodes := s.part.inodeBitmap.free_eq_zero_iff
  constructor
  · intro hback htraces
    cases htraces with
    | noInode hbuf hno => exact create_without_inode hbuf (hinodes.1 hno) hback
    | noSlot hsupply hfull huser =>
      obtain ⟨n, hscan⟩ := Option.ne_none_iff_exists'.1 (mt hinodes.2 hsupply.number)
      exact huser ((create_without_slot h.cache h.inodeBits hsupply.buffer hscan hsupply.memory
        (table_full_iff.1 hfull)).1 hback)
    | noPlace hsupply hslot hname hroom hgrow hcause =>
      obtain ⟨n, hscan⟩ := Option.ne_none_iff_exists'.1 (mt hinodes.2 hsupply.number)
      obtain ⟨idx, hidx⟩ := Option.ne_none_iff_exists'.1 (mt table_full_iff.2 hslot)
      obtain ⟨hkernel, hfree⟩ := (h.without_place hsupply.buffer hscan hsupply.memory hidx hname
        hroom hgrow).1 hback
      exact hcause.elim (· hkernel) (· hfree)
    | noDescriptor hsupply hslot hname hplace hfd =>
      obtain ⟨n, hscan⟩ := Option.ne_none_iff_exists'.1 (mt hinodes.2 hsupply.number)
      obtain ⟨idx, hidx⟩ := Option.ne_none_iff_exists'.1 (mt table_full_iff.2 hslot)
      exact hfd ((h.without_descriptor hsupply.buffer hscan hsupply.memory hidx hname
        hplace).1 hback)
  · intro hclean
    cases hbuf : s.grant s.heap.requests 1024 with
    | false => exact create_without_buffer hbuf
    | true =>
      cases hscan : bitmapScan s.part.inodeBitmap 1 with
      | none => exact absurd (.noInode hbuf (hinodes.2 hscan)) hclean
      | some n =>
        cases hmem : s.grant (s.heap.requests + 1) inodeSize with
        | false => exact create_without_memory h.cache h.inodeBits hbuf hscan hmem
        | true =>
          have hsupply : Supplied s := ⟨hbuf, by rw [Ne, hinodes, hscan]; simp, hmem⟩
          cases hslot : findSlot s.fileTable (maxFileOpen - 3) 3 with
          | none =>
            refine (create_without_slot h.cache h.inodeBits hbuf hscan hmem hslot).2 ?_
            by_contra huser
            exact hclean (.noSlot hsupply (table_full_iff.2 hslot) huser)
          | some idx =>
            have htable : ¬TableFull s := by rw [table_full_iff, hslot]; simp
            by_cases hname : name.length ≤ 16
            · by_cases hplace : ¬HasRoom s inode ∧ CannotGrow s inode
              · refine (h.without_place hbuf hscan hmem hslot hname hplace.1 hplace.2).2 ?_
                by_contra hcause
                exact hclean (.noPlace hsupply htable hname hplace.1 hplace.2 (not_and_or.1 hcause))
              · refine (h.without_descriptor hbuf hscan hmem hslot hname hplace).2 ?_
                by_contra hfd
                exact hclean (.noDescriptor hsupply htable hname hplace hfd)
            · exact create_with_long_name h.cache h.inodeBits hbuf hscan hmem hslot hname

/-- A kernel with an open empty directory, whose disk agrees with the block bitmap. -/
def emptyDir : Kernel :=
  dirKernel 3 (fun i => if i = 512 * 65 then 3 else 0) (oneBlockDir 0)

theorem empty_dir_ready : CreateReady emptyDir 5 2 (oneBlockDir 0) where
  toOpenDir := one_block_open (fun j hj _ i hi => by
    have hne : ¬512 * 676 + (24 * j + i) = 512 * 65 := by omega
    simp [sectorAt, sectorsAt, hne]) (by decide +kernel)
  cache := by
    refine ⟨fun p hp => ?_, fun p hp => ?_⟩
    · have hne : p ≠ 2 := Nat.ne_of_gt hp
      simp [emptyDir, dirKernel, fileKernel, hne]
    · obtain rfl : p = 2 := by simpa [emptyDir, dirKernel, fileKernel] using hp
      exact ⟨_, rfl, Nat.le_refl 1⟩
  inodeBits := by decide
  synced := by
    intro k _
    show (if 512 * 65 + k = 512 * 65 then (3 : UInt8) else 0) = if k = 0 then 3 else 0
    simp

/-- The same kernel with every slot of `file_table` in use. -/
def fullTable : Kernel := { emptyDir with fileTable := fun _ => ⟨0, 0, some 2⟩ }

/-- The same kernel with a task that has no free descriptor. -/
def fullFds : Kernel :=
  { emptyDir with tasks := fun _ => some ⟨1, -1, .running, fun k => k.val, 0⟩ }

/-- For a kernel thread, a full file table is a failure without a trace. -/
theorem create_rolls_back_for_a_thread :
    (∃ last log, Pools.fileCreate none 5 [97] 1 (fullTable, ⟨[], []⟩) = .done (-1) (last, log)) ∧
      CreateRollsBack fullTable none 5 [97] 1 := by
  obtain ⟨r, ⟨last, log⟩, hdone, rfl⟩ :
      ∃ r fin, Pools.fileCreate none 5 [97] 1 (fullTable, ⟨[], []⟩) = .done r fin ∧ r = -1 :=
    wp_never_iff.1 (by decide +kernel)
  have hready := empty_dir_ready.with_file_table fullTable.fileTable
  refine ⟨⟨last, log, hdone⟩, (file_create_rolls_back_iff hready none [97] 1).2 fun htraces => ?_⟩
  have hfull : TableFull fullTable := fun _ _ _ => by simp [fullTable]
  cases htraces with
  | noInode hbuf hno => exact absurd ((BitMap.free_eq_zero_iff _).1 hno) (by decide)
  | noSlot hsupply hfull huser => exact huser rfl
  | noPlace hsupply hslot => exact hslot hfull
  | noDescriptor hsupply hslot => exact hslot hfull

/-- A process without a free descriptor gets -1, but the file is there: its inode is taken, in
memory and on the disk, and open, and the directory has its entry. -/
theorem create_fails_after_the_fact :
    ∃ last log, Pools.fileCreate none 5 [97] 1 (fullFds, ⟨[], []⟩) = .done (-1) (last, log) ∧
      fullFds.openInodes = [2] ∧ last.openInodes = [4, 2] ∧
      bitmapScanTest fullFds.part.inodeBitmap 2 = false ∧
      bitmapScanTest last.part.inodeBitmap 2 = true := by
  obtain ⟨r, ⟨last, log⟩, hdone, rfl, hopen, hbit⟩ :
      ∃ r fin, Pools.fileCreate none 5 [97] 1 (fullFds, ⟨[], []⟩) = .done r fin ∧ r = -1 ∧
        fin.1.openInodes = [4, 2] ∧ bitmapScanTest fin.1.part.inodeBitmap 2 = true :=
    wp_never_iff.1 (by decide +kernel)
  exact ⟨last, log, hdone, rfl, hopen, by decide, hbit⟩

end LosKernel
