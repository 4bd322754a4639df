import LosKernel.Fs.Calls

/-!
# Creating and ending processes

After `sys_fork` of `userprog/fork.c` and `sys_exit` of `userprog/wait_exit.c`, with the functions
of `thread/thread.c` they use. Of the memory that a fork copies only the control block is kept,
and of the resources an exit releases only the open files. Whether the kernel pages for a fork are
there is decided as for `sysMalloc`. A control block is on `thread_all_list` from the fork on.
-/

namespace LosKernel

open Prog

/-- `PG_SIZE`. -/
def pgSize : Nat := 4096

/-- `allocate_pid`. -/
def allocatePid : Call Int := do
  update fun s => { s with nextPid := incPid s.nextPid }
  let s ← state
  pure s.nextPid

/-- `update_inode_open_cnts`, over `count` local descriptors from `localFd` on. -/
def updateInodeOpenCnts (thread : Task) : Nat → Nat → Call Unit
  | 0, _ => pure ()
  | count + 1, localFd => do
    let globalFd := thread.fd localFd
    assert (globalFd < 32)
    when (globalFd ≠ -1) do
      access (0 ≤ globalFd)
      let (p, inode) ← fileInode globalFd.toNat
      storeInode p { inode with iOpenCnts := inode.iOpenCnts + 1 }
    updateInodeOpenCnts thread count (localFd + 1)

/-- `copy_pcb_vaddrbitmap_stack0`: the control block of the child, `none` for -1. The bitmap of
the user address space takes 23 pages. -/
def copyPcb (parentThread : Task) : Call (Option Task) := do
  let pid ← allocatePid
  match ← sysMalloc (23 * pgSize) with
  | none => pure none
  | some _ =>
    pure (some { parentThread with
      pid := pid, status := .ready, parentPid := parentThread.pid })

/-- `copy_process`: the control block of the child, `none` for -1. -/
def copyProcess (parentThread : Task) : Call (Option Task) := do
  match ← sysMalloc pgSize with
  | none => pure none
  | some bufPage =>
    match ← copyPcb parentThread with
    | none => pure none
    | some childThread =>
      match ← sysMalloc pgSize with
      | none => pure none
      | some _ =>
        updateInodeOpenCnts childThread (maxFilesOpenPerProc - 3) 3
        sysFree bufPage
        pure (some childThread)

/-- `sys_fork`: the result of the parent. -/
def sysFork : Call Int := do
  let parentThread ← runningThread
  match ← sysMalloc pgSize with
  | none => pure (-1)
  | some child =>
    match ← copyProcess parentThread with
    | none => pure (-1)
    | some childThread =>
      update fun s =>
        { s with
          tasks := Function.update s.tasks child (some childThread)
          threadAllList := s.threadAllList ++ [child] }
      pure childThread.pid

/-- The loop of `release_prog_resource` that closes the open files, over `count` local descriptors
from `fdIdx` on. -/
def closeFiles : Nat → Nat → Call Unit
  | 0, _ => pure ()
  | count + 1, fdIdx => do
    let releaseThread ← runningThread
    when (releaseThread.fd fdIdx ≠ -1) do
      let _ ← sysClose fdIdx
    closeFiles count (fdIdx + 1)

/-- `init_adopt_a_child` on every control block: the children of `pid` become children of init. -/
def adoptChildren (pid : Int) : Call Unit :=
  update fun s =>
    { s with
      tasks := fun p =>
        if p ∈ s.threadAllList then
          (s.tasks p).map fun t => if t.parentPid = pid then { t with parentPid := 1 } else t
        else s.tasks p }

/-- `pid2thread`. -/
def pid2Thread (s : Kernel) (pid : Int) : Option Ptr :=
  s.threadAllList.find? fun p => (s.tasks p).any fun t => t.pid == pid

/-- The step of `sys_exit` that wakes the parent up if it waits. -/
def wakeParent (parentPid : Int) : Call Unit := do
  let s ← state
  let parent ← nonNull (pid2Thread s parentPid)
  let parentThread ← nonNull (s.tasks parent)
  when (parentThread.status = .waiting)
    (update fun s =>
      { s with
        tasks := Function.update s.tasks parent (some { parentThread with status := .ready }) })

/-- `sys_exit`, up to the switch to another thread. -/
def sysExit : Call Unit := do
  let childThread ← runningThread
  assert (childThread.parentPid ≠ -1)
  adoptChildren childThread.pid
  closeFiles (maxFilesOpenPerProc - 3) 3
  let childThread ← runningThread
  wakeParent childThread.parentPid
  let childThread ← runningThread
  storeTask { childThread with status := .hanging }

end LosKernel
