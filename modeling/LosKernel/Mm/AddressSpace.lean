import LosKernel.Mm.Paging

/-!
# Address spaces of processes

After `userprog/process.c`, `userprog/fork.c`, `userprog/wait_exit.c` and the functions of
`thread/thread.c` they use, as far as pages, page tables and control blocks are concerned. Of the
kernel stacks only the words that a fork copies and writes are part of this model, and of open
files only what a fork reads and counts. `Vm.boot` is the state in which the loader and `mem_init`
leave the machine.
-/

namespace LosKernel.Mm

open Prog

/-- `USER_VADDR_START`. -/
def userVaddrStart : Nat := 0x8048000

/-- `USER_STACK3_VADDR`. -/
def userStack3Vaddr : Nat := 0xc0000000 - 0x1000

/-- The length in bytes of the bitmap of the virtual pages of a process. -/
def userMapLen : Nat := (0xc0000000 - userVaddrStart) / 4096 / 8

/-- `DIV_ROUND_UP(user_map_len, PG_SIZE)`: the pages that hold such a bitmap. -/
def bitmapPgCnt : Nat := (userMapLen + 4096 - 1) / 4096

/-- The frame of the page directory of the kernel. -/
def kernelDir : Nat := 0x100

/-- `page_dir_activate`. -/
def pageDirActivate (pThread : Task) : Call Unit := do
  if pThread.pgdir ≠ 0 then
    let pagedirPhyAddr ← addrV2p pThread.pgdir
    update fun s => { s with cr3 := pagedirPhyAddr / 4096 }
  else
    update fun s => { s with cr3 := kernelDir }

/-- `schedule`, once the next thread is chosen: it runs in its own address space. -/
def switchTo (p : Nat) : Call Unit := do
  let s ← state
  let next ← nonNull (s.tasks p)
  pageDirActivate next
  update fun s => { s with cur := p }

/-- `create_page_dir`: the address of a new page directory with the entries of the kernel half,
0 for `NULL`. -/
def createPageDir : Call Nat := do
  match ← getKernelPages 1 with
  | none => pure 0
  | some pageDirVaddr =>
    copyPage pageDirVaddr 0xfffff000 0x300
    let newPageDirPhyAddr ← addrV2p pageDirVaddr
    store (pageDirVaddr + 1023 * 4) (entryFor newPageDirPhyAddr)
    pure pageDirVaddr

/-- `allocate_pid`. -/
def allocatePid : Call Int := do
  update fun s => { s with nextPid := incPid s.nextPid }
  let s ← state
  pure s.nextPid

/-- An empty range of virtual addresses, as in a control block that `init_thread` cleared. -/
def VirtualAddr.empty : VirtualAddr := ⟨⟨0, fun _ => 0⟩, 0⟩

/-- The control block that `init_thread` writes, for a thread other than the main thread. -/
def Task.fresh (pthread : Nat) (pid : Int) : Task where
  pid := pid
  parentPid := -1
  status := .ready
  pgdir := 0
  userprogVaddr := .empty
  bitsAddr := 0
  selfKstack := pthread + 4096
  fdTable := fun fd => if fd < 3 then fd else -1
  cwdInodeNr := 0

/-- `init_thread`. -/
def initThread (pthread : Nat) : Call Task := do
  let pid ← allocatePid
  pure (.fresh pthread pid)

/-- `thread_create`. The pointer is one to words, so the sizes of the two stacks count fourfold. -/
def threadCreate (task : Task) : Task :=
  { task with selfKstack := task.selfKstack - 4 * 76 - 4 * 32 }

/-- `process_execute`: create a process. Its code starts with `get_a_page` for its stack. -/
def processExecute : Call Unit := do
  let thread ← nonNull (← getKernelPages 1)
  let task ← initThread thread
  let bits ← nonNull (← getKernelPages bitmapPgCnt)
  let pgdir ← createPageDir
  storeTask thread
    { threadCreate task with
      pgdir := pgdir
      userprogVaddr := ⟨⟨userMapLen, fun _ => 0⟩, userVaddrStart⟩
      bitsAddr := bits }
  update fun s => { s with threadAllList := s.threadAllList ++ [thread] }

/-- `thread_start`: create a kernel thread. -/
def threadStart : Call Unit := do
  let thread ← nonNull (← getKernelPages 1)
  let task ← initThread thread
  storeTask thread (threadCreate task)
  update fun s => { s with threadAllList := s.threadAllList ++ [thread] }

/-- `make_main_thread`: the thread that runs since boot gets a control block. -/
def makeMainThread : Call Unit := do
  let s ← state
  let task ← initThread s.mainThread
  storeTask s.mainThread { task with status := .running }
  assert (s.mainThread ∉ s.threadAllList)
  update fun s => { s with threadAllList := s.threadAllList ++ [s.mainThread] }

/-! ## Fork -/

/-- `memcpy` of `pages` pages. -/
def copyPages : Nat → Nat → Nat → Call Unit
  | 0, _, _ => pure ()
  | pages + 1, dst, src => do
    copyPage dst src 0
    copyPages pages (dst + 4096) (src + 4096)

/-- `copy_pcb_vaddrbitmap_stack0`: the control block of the child, `none` for -1. -/
def copyPcbVaddrbitmapStack0 (child : Nat) (parentThread : Task) : Call (Option Task) := do
  let s ← state
  copyPage child s.cur 0
  let pid ← allocatePid
  match ← getKernelPages bitmapPgCnt with
  | none => pure none
  | some vaddrBtmp =>
    copyPages bitmapPgCnt vaddrBtmp parentThread.bitsAddr
    pure (some { parentThread with
      pid := pid
      status := .ready
      parentPid := parentThread.pid
      bitsAddr := vaddrBtmp })

/-- The body of the loops of `copy_body_stack3`: copy the page of `progVaddr` through the buffer. -/
def copyProgPage (childThread parentThread : Task) (bufPage progVaddr : Nat) : Call Unit := do
  copyPage bufPage progVaddr 0
  pageDirActivate childThread
  let _ ← getAPageWithoutOpvaddrbitmap .user progVaddr
  copyPage progVaddr bufPage 0
  pageDirActivate parentThread

/-- The inner loop of `copy_body_stack3`, over `count` bits of a byte from `idxBit` on. -/
def copyByte (childThread parentThread : Task) (bufPage idxByte : Nat) : Nat → Nat → Call Unit
  | 0, _ => pure ()
  | count + 1, idxBit => do
    when (bitmapScanTest parentThread.userprogVaddr.vaddrMap (idxByte * 8 + idxBit) = true)
      (copyProgPage childThread parentThread bufPage
        ((idxByte * 8 + idxBit) * 4096 + parentThread.userprogVaddr.vaddrStart))
    copyByte childThread parentThread bufPage idxByte count (idxBit + 1)

/-- `copy_body_stack3`, over `count` bytes of the bitmap from `idxByte` on. -/
def copyBodyStack3 (childThread parentThread : Task) (bufPage : Nat) : Nat → Nat → Call Unit
  | 0, _ => pure ()
  | count + 1, idxByte => do
    when (parentThread.userprogVaddr.vaddrMap.bits idxByte ≠ 0)
      (copyByte childThread parentThread bufPage idxByte 8 0)
    copyBodyStack3 childThread parentThread bufPage count (idxByte + 1)

/-- The address of the frame that an interrupt from user mode pushes on the kernel stack. -/
def intrStack (pthread : Nat) : Nat := pthread + 4096 - 76

/-- `build_child_stack`: the child returns 0 from the interrupt, and `switch_to` finds the stack
of a thread that is about to return to `intr_exit`. -/
def buildChildStack (child : Nat) (childThread : Task) : Call Task := do
  let intr0Stack := intrStack child
  store (intr0Stack + 32) 0
  let s ← state
  store (intr0Stack - 4) s.intrExit
  store (intr0Stack - 8) 0
  store (intr0Stack - 12) 0
  store (intr0Stack - 16) 0
  store (intr0Stack - 20) 0
  pure { childThread with selfKstack := intr0Stack - 20 }

/-- `update_inode_open_cnts`, over `count` local descriptors from `localFd` on. -/
def updateInodeOpenCnts (thread : Task) : Nat → Nat → Call Unit
  | 0, _ => pure ()
  | count + 1, localFd => do
    let globalFd := thread.fdTable localFd
    assert (globalFd < 32)
    when (globalFd ≠ -1) do
      access (0 ≤ globalFd)
      let s ← state
      let inode ← nonNull (s.fdInode globalFd.toNat)
      update fun s =>
        { s with iOpenCnts := Function.update s.iOpenCnts inode (s.iOpenCnts inode + 1) }
    updateInodeOpenCnts thread count (localFd + 1)

/-- `copy_process`: the control block of the child, `none` for -1. -/
def copyProcess (child : Nat) (parentThread : Task) : Call (Option Task) := do
  match ← getKernelPages 1 with
  | none => pure none
  | some bufPage =>
    match ← copyPcbVaddrbitmapStack0 child parentThread with
    | none => pure none
    | some childThread =>
      let pgdir ← createPageDir
      if pgdir = 0 then
        pure none
      else
        let childThread := { childThread with pgdir := pgdir }
        copyBodyStack3 childThread parentThread bufPage
          parentThread.userprogVaddr.vaddrMap.btmpBytesLen 0
        let childThread ← buildChildStack child childThread
        updateInodeOpenCnts childThread 5 3
        mfreePage .kernel bufPage 1
        pure (some childThread)

/-- `sys_fork`: the control block and the pid of the child, `none` for -1. -/
def sysFork : Call (Option (Nat × Int)) := do
  let parentThread ← runningThread
  match ← getKernelPages 1 with
  | none => pure none
  | some child =>
    assert (parentThread.pgdir ≠ 0)
    match ← copyProcess child parentThread with
    | none => pure none
    | some childThread =>
      storeTask child childThread
      update fun s => { s with threadAllList := s.threadAllList ++ [child] }
      pure (some (child, childThread.pid))

/-! ## Exit and wait -/

/-- The inner loop of `release_prog_resource`, over `count` entries of the page table of directory
entry `pdeIdx` from `pteIdx` on. -/
def releaseTable (pdeIdx : Nat) : Nat → Nat → Call Unit
  | 0, _ => pure ()
  | count + 1, pteIdx => do
    let pte ← load (ptePtr (pdeIdx * 0x400000) + pteIdx * 4)
    when (present pte) (pfree (pte / 4096 * 4096))
    releaseTable pdeIdx count (pteIdx + 1)

/-- The outer loop of `release_prog_resource`, over `count` entries of the page directory from
`pdeIdx` on. -/
def releaseTables (pgdirVaddr : Nat) : Nat → Nat → Call Unit
  | 0, _ => pure ()
  | count + 1, pdeIdx => do
    let pde ← load (pgdirVaddr + pdeIdx * 4)
    when (present pde) do
      releaseTable pdeIdx 1024 0
      pfree (pde / 4096 * 4096)
    releaseTables pgdirVaddr count (pdeIdx + 1)

/-- `release_prog_resource`. The number of pages of the bitmap is rounded down here. -/
def releaseProgResource (releaseThread : Task) : Call Unit := do
  releaseTables releaseThread.pgdir 768 0
  mfreePage .kernel releaseThread.bitsAddr
    (releaseThread.userprogVaddr.vaddrMap.btmpBytesLen / 4096)

/-- `init_adopt_a_child` on every control block. -/
def adoptChildren (pid : Int) : Call Unit :=
  update fun s =>
    { s with
      tasks := fun p =>
        if p ∈ s.threadAllList then
          (s.tasks p).map fun t => if t.parentPid = pid then { t with parentPid := 1 } else t
        else s.tasks p }

/-- `pid2thread`. -/
def pid2Thread (s : Vm) (pid : Int) : Option Nat :=
  s.threadAllList.find? fun p => (s.tasks p).any fun t => t.pid == pid

/-- The step of `sys_exit` that wakes the parent up if it waits. -/
def wakeParent (parentPid : Int) : Call Unit := do
  let s ← state
  let parent ← nonNull (pid2Thread s parentPid)
  let parentThread ← nonNull (s.tasks parent)
  when (parentThread.status = .waiting)
    (storeTask parent { parentThread with status := .ready })

/-- `sys_exit`, up to the switch to another thread. -/
def sysExit : Call Unit := do
  let childThread ← runningThread
  assert (childThread.parentPid ≠ -1)
  adoptChildren childThread.pid
  releaseProgResource childThread
  let childThread ← runningThread
  wakeParent childThread.parentPid
  let childThread ← runningThread
  let s ← state
  storeTask s.cur { childThread with status := .hanging }

/-- `thread_exit` of another thread. -/
def threadExit (threadOver : Nat) : Call Unit := do
  let s ← state
  let task ← nonNull (s.tasks threadOver)
  storeTask threadOver { task with status := .died }
  when (task.pgdir ≠ 0) (mfreePage .kernel task.pgdir 1)
  update fun s => { s with threadAllList := s.threadAllList.erase threadOver }
  when (threadOver ≠ s.mainThread) (mfreePage .kernel threadOver 1)

/-- What a round of the loop of `sys_wait` ends with. -/
inductive Waited where
  | reaped (child : Nat) (pid : Int)
  | noChild
  | blocked
  deriving DecidableEq, Repr

/-- One round of the loop of `sys_wait`; after `blocked` the next round follows when a child
exits. -/
def sysWait : Call Waited := do
  let parentThread ← runningThread
  let s ← state
  match s.threadAllList.find? fun p => (s.tasks p).any fun t =>
      t.parentPid == parentThread.pid && t.status == .hanging with
  | some child =>
    let childThread ← nonNull (s.tasks child)
    threadExit child
    pure (.reaped child childThread.pid)
  | none =>
    if s.threadAllList.any fun p => (s.tasks p).any fun t => t.parentPid == parentThread.pid then
      storeTask s.cur { parentThread with status := .waiting }
      pure .blocked
    else
      pure .noChild

/-! ## Boot -/

/-- The words of the page directory and the page tables that `setup_page` writes; the other words
keep what the memory held. -/
def setupPage (ram : Nat → Nat → Nat) : Nat → Nat → Nat := fun frame idx =>
  if frame = kernelDir then
    if idx = 0 ∨ idx = 0x300 then entryFor 0x101000
    else if idx = 0x3ff then entryFor 0x100000
    else if 0x301 ≤ idx ∧ idx < 0x3ff then entryFor (0x102000 + (idx - 0x301) * 0x1000)
    else 0
  else if frame = 0x101 ∧ idx < 0x100 then entryFor (idx * 0x1000)
  else ram frame idx

/-- The state after `setup_page` and `mem_pool_init` with `allMem` bytes of memory. `slack` is what
the memory after the bitmap of the virtual pages of the kernel holds. -/
def Vm.boot (ram : Nat → Nat → Nat) (slack : Bytes) (allMem : Nat) : Vm :=
  let usedMem := 4096 * 256 + 0x100000
  let freeMem := (allMem + 2 ^ 32 - usedMem) % 2 ^ 32
  let allFreePages := freeMem / 4096 % 2 ^ 16
  let kernelFreePages := allFreePages / 2
  let userFreePages := allFreePages - kernelFreePages
  let kbmLength := kernelFreePages / 8
  { mem := setupPage ram
    cr3 := kernelDir
    kernelPool := ⟨⟨kbmLength, fun _ => 0⟩, usedMem⟩
    userPool := ⟨⟨userFreePages / 8, fun _ => 0⟩, usedMem + kernelFreePages * 4096⟩
    kernelVaddr := ⟨⟨kbmLength, fun i => if i < kbmLength then 0 else slack i⟩, 0xc0100000⟩
    tasks := fun p =>
      if p = 0xc009e000 then some ⟨0, 0, .running, 0, .empty, 0, 0, fun _ => 0, 0⟩ else none
    threadAllList := []
    mainThread := 0xc009e000
    cur := 0xc009e000
    nextPid := 0
    fdInode := fun _ => none
    iOpenCnts := fun _ => 0
    intrExit := 0xc0001500 }

end LosKernel.Mm
