import LosKernel.Kernel.State

/-!
# Pages and page tables

After the first half of `kernel/losmemory.c`: the pools of physical frames, the bitmaps of virtual
pages, and the page tables. Physical memory is a map from frames and word indices to words. Every
load and store that may hit a page table, and every `memset` and `memcpy` of whole pages, goes
through `walk` and the active directory (`cr3`), as on the processor; a page that is not present
is a fault, which stops the call.

Addresses and words are natural numbers below `2 ^ 32`. Control blocks and bitmaps are records. The
locks of the pools are not part of the model.
-/

namespace LosKernel.Mm

open Prog

/-- `PF_KERNEL` and `PF_USER`. -/
inductive PoolType where
  | kernel
  | user
  deriving DecidableEq, Repr

/-- `Pool`: a pool of physical frames. -/
structure Pool where
  poolMap : BitMap
  phyAddrStart : Nat

/-- `VirtualAddr`: which pages of a range of virtual addresses are taken. -/
structure VirtualAddr where
  vaddrMap : BitMap
  vaddrStart : Nat

/-- The part of `TaskStruct` that concerns memory or is copied by a fork. `pgdir` is 0 for `NULL`,
and `bitsAddr` is the address of `userprog_vaddr.vaddr_map.bits`. -/
structure Task where
  pid : Int
  parentPid : Int
  status : TaskStatus
  pgdir : Nat
  userprogVaddr : VirtualAddr
  bitsAddr : Nat
  selfKstack : Nat
  fdTable : Nat → Int
  cwdInodeNr : Nat

/-- The memory of the machine and what the kernel knows about it. `cr3` is the frame of the active
page directory; control blocks are named by their addresses. `fdInode` is the field `fd_inode` of
the slots of `file_table`, `iOpenCnts` is the field of that name of the inodes, and `intrExit` is
the address of the code of `intr_exit`. -/
structure Vm where
  mem : Nat → Nat → Nat
  cr3 : Nat
  kernelPool : Pool
  userPool : Pool
  kernelVaddr : VirtualAddr
  tasks : Nat → Option Task
  threadAllList : List Nat
  mainThread : Nat
  cur : Nat
  nextPid : Int
  fdInode : Nat → Option Nat
  iOpenCnts : Nat → Nat
  intrExit : Nat

/-- A program over the memory. -/
abbrev Call (α : Type) := Prog Stop Vm α

/-- `running_thread`. -/
def runningThread : Call Task := do
  let s ← state
  nonNull (s.tasks s.cur)

/-- Store to the control block at `p`. -/
def storeTask (p : Nat) (task : Task) : Call Unit :=
  update fun s => { s with tasks := Function.update s.tasks p (some task) }

/-! ## Address translation -/

/-- `PDE_IDX`. -/
def pdeIdx (vaddr : Nat) : Nat := vaddr / 2 ^ 22 % 1024

/-- `PTE_IDX`. -/
def pteIdx (vaddr : Nat) : Nat := vaddr / 2 ^ 12 % 1024

/-- The P bit of an entry. -/
def present (entry : Nat) : Bool := entry % 2 = 1

/-- The frame an entry refers to. -/
def frameOf (entry : Nat) : Nat := entry / 4096

/-- `addr | PG_US_U | PG_RW_W | PG_P_1`. -/
def entryFor (addr : Nat) : Nat := addr ||| 7

/-- The frame of a page in the address space of the directory `dir`, as the processor finds it. -/
def walk (mem : Nat → Nat → Nat) (dir vaddr : Nat) : Option Nat :=
  let pde := mem dir (pdeIdx vaddr)
  if present pde then
    let pte := mem (frameOf pde) (pteIdx vaddr)
    if present pte then some (frameOf pte) else none
  else none

/-- The frame of the page of `vaddr` in the active address space. -/
def frameAt (vaddr : Nat) : Call Nat := do
  let s ← state
  nonNull (walk s.mem s.cr3 vaddr)

/-- Store a word in a frame. -/
def storeWord (frame idx value : Nat) : Call Unit :=
  update fun s =>
    { s with mem := Function.update s.mem frame (Function.update (s.mem frame) idx value) }

/-- Load the word at a virtual address. -/
def load (vaddr : Nat) : Call Nat := do
  let frame ← frameAt vaddr
  let s ← state
  pure (s.mem frame (vaddr % 4096 / 4))

/-- Store the word at a virtual address. -/
def store (vaddr value : Nat) : Call Unit := do
  let frame ← frameAt vaddr
  storeWord frame (vaddr % 4096 / 4) value

/-- `memset` of the page of `vaddr` to 0. -/
def zeroPage (vaddr : Nat) : Call Unit := do
  let frame ← frameAt vaddr
  update fun s => { s with mem := Function.update s.mem frame fun _ => 0 }

/-- `memcpy` of the words from `first` on, up to the end of the page, from the page of `src` to
the page of `dst`. -/
def copyPage (dst src first : Nat) : Call Unit := do
  let source ← frameAt src
  let target ← frameAt dst
  update fun s =>
    { s with
      mem := Function.update s.mem target fun i =>
        if first ≤ i then s.mem source i else s.mem target i }

/-- `pte_ptr`: the address of the entry of a page in its page table. -/
def ptePtr (vaddr : Nat) : Nat := 0xffc00000 + pdeIdx vaddr * 4096 + pteIdx vaddr * 4

/-- `pde_ptr`: the address of the entry of a page in the page directory. -/
def pdePtr (vaddr : Nat) : Nat := 0xfffff000 + pdeIdx vaddr * 4

/-- `addr_v2p`. -/
def addrV2p (vaddr : Nat) : Call Nat := do
  let pte ← load (ptePtr vaddr)
  pure (pte / 4096 * 4096 + vaddr % 4096)

/-! ## Bitmaps -/

/-- Give `cnt` bits from `start` on the value `value`. -/
def bitmapSetRange (m : BitMap) (start : Nat) : Nat → Bool → BitMap
  | 0, _ => m
  | cnt + 1, value => bitmapSet (bitmapSetRange m start cnt value) (start + cnt) value

/-- The pool a request is served from. -/
def Vm.pool (s : Vm) : PoolType → Pool
  | .kernel => s.kernelPool
  | .user => s.userPool

/-- Replace the bitmap of a pool. -/
def Vm.setPoolMap (s : Vm) (t : PoolType) (m : BitMap) : Vm :=
  match t with
  | .kernel => { s with kernelPool := { s.kernelPool with poolMap := m } }
  | .user => { s with userPool := { s.userPool with poolMap := m } }

/-- `vaddr_get`: reserve `pages` virtual pages, `none` for `NULL`. -/
def vaddrGet (t : PoolType) (pages : Nat) : Call (Option Nat) := do
  match t with
  | .kernel =>
    let s ← state
    match bitmapScan s.kernelVaddr.vaddrMap pages with
    | none => pure none
    | some bitIdxStart =>
      update fun s =>
        { s with kernelVaddr := { s.kernelVaddr with
            vaddrMap := bitmapSetRange s.kernelVaddr.vaddrMap bitIdxStart pages true } }
      pure (some (s.kernelVaddr.vaddrStart + bitIdxStart * 4096))
  | .user =>
    let cur ← runningThread
    match bitmapScan cur.userprogVaddr.vaddrMap pages with
    | none => pure none
    | some bitIdxStart =>
      let s ← state
      storeTask s.cur { cur with userprogVaddr := { cur.userprogVaddr with
        vaddrMap := bitmapSetRange cur.userprogVaddr.vaddrMap bitIdxStart pages true } }
      let vaddrStart := cur.userprogVaddr.vaddrStart + bitIdxStart * 4096
      assert (vaddrStart < 0xc0000000 - 4096)
      pure (some vaddrStart)

/-- `vaddr_remove`: give back `pgCnt` virtual pages. -/
def vaddrRemove (pf : PoolType) (vaddr pgCnt : Nat) : Call Unit := do
  match pf with
  | .kernel =>
    update fun s =>
      let bitIdxStart := (vaddr + 2 ^ 32 - s.kernelVaddr.vaddrStart) % 2 ^ 32 / 4096
      { s with kernelVaddr := { s.kernelVaddr with
          vaddrMap := bitmapSetRange s.kernelVaddr.vaddrMap bitIdxStart pgCnt false } }
  | .user =>
    let cur ← runningThread
    let s ← state
    let bitIdxStart := (vaddr + 2 ^ 32 - cur.userprogVaddr.vaddrStart) % 2 ^ 32 / 4096
    storeTask s.cur { cur with userprogVaddr := { cur.userprogVaddr with
      vaddrMap := bitmapSetRange cur.userprogVaddr.vaddrMap bitIdxStart pgCnt false } }

/-! ## Frames -/

/-- `palloc`: the address of a free frame, `none` for `NULL`. -/
def palloc (t : PoolType) : Call (Option Nat) := do
  let s ← state
  match bitmapScan (s.pool t).poolMap 1 with
  | none => pure none
  | some bitIdx =>
    update fun s => s.setPoolMap t (bitmapSet (s.pool t).poolMap bitIdx true)
    pure (some (bitIdx * 4096 + (s.pool t).phyAddrStart))

/-- `pfree` and `free_a_phy_page`, which are the same: give a frame back to the pool its address
is in. -/
def pfree (pgPhyAddr : Nat) : Call Unit :=
  update fun s =>
    let t : PoolType := if s.userPool.phyAddrStart ≤ pgPhyAddr then .user else .kernel
    let bitIdx := (pgPhyAddr + 2 ^ 32 - (s.pool t).phyAddrStart) % 2 ^ 32 / 4096
    s.setPoolMap t (bitmapSet (s.pool t).poolMap bitIdx false)

/-- `page_table_add`: map a page to a frame. The frame for a missing page table is taken without
a check, so its address is 0 when the pool of the kernel is empty. -/
def pageTableAdd (vaddr pagePhyaddr : Nat) : Call Unit := do
  let pde ← load (pdePtr vaddr)
  if present pde then
    let pte ← load (ptePtr vaddr)
    assert (!present pte)
    store (ptePtr vaddr) (entryFor pagePhyaddr)
  else
    let pdePhyaddr ← palloc .kernel
    store (pdePtr vaddr) (entryFor (pdePhyaddr.getD 0))
    zeroPage (ptePtr vaddr / 4096 * 4096)
    let pte ← load (ptePtr vaddr)
    assert (!present pte)
    store (ptePtr vaddr) (entryFor pagePhyaddr)

/-- `page_table_pte_remove`: clear the P bit of the entry of a page. -/
def pageTablePteRemove (vaddr : Nat) : Call Unit := do
  let pte ← load (ptePtr vaddr)
  store (ptePtr vaddr) (pte - pte % 2)

/-! ## Allocating and freeing pages -/

/-- The loop of `malloc_page`, over `cnt` pages from `vaddr` on; `false` when a frame is missing. -/
def mapPages (t : PoolType) : Nat → Nat → Call Bool
  | 0, _ => pure true
  | cnt + 1, vaddr => do
    match ← palloc t with
    | none => pure false
    | some pagePhyaddr =>
      pageTableAdd vaddr pagePhyaddr
      mapPages t cnt (vaddr + 4096)

/-- `malloc_page`: the address of `pages` pages in a row, `none` for `NULL`. -/
def mallocPage (t : PoolType) (pages : Nat) : Call (Option Nat) := do
  assert (0 < pages && pages < 3840)
  match ← vaddrGet t pages with
  | none => pure none
  | some vaddrStart =>
    if ← mapPages t pages vaddrStart then pure (some vaddrStart) else pure none

/-- The loops of `mfree_page`, over `cnt` pages from `vaddr` on, for frames of the pool `t`. -/
def unmapPages (t : PoolType) : Nat → Nat → Call Unit
  | 0, _ => pure ()
  | cnt + 1, vaddr => do
    let pgPhyAddr ← addrV2p vaddr
    let s ← state
    match t with
    | .user => assert (pgPhyAddr % 4096 = 0 && s.userPool.phyAddrStart ≤ pgPhyAddr)
    | .kernel =>
      assert (pgPhyAddr % 4096 = 0 && s.kernelPool.phyAddrStart ≤ pgPhyAddr &&
        pgPhyAddr < s.userPool.phyAddrStart)
    pfree pgPhyAddr
    pageTablePteRemove vaddr
    unmapPages t cnt (vaddr + 4096)

/-- `mfree_page`: free `pgCnt` pages from `vaddr` on. -/
def mfreePage (pf : PoolType) (vaddr pgCnt : Nat) : Call Unit := do
  assert (1 ≤ pgCnt && vaddr % 4096 = 0)
  let pgPhyAddr ← addrV2p vaddr
  assert (pgPhyAddr % 4096 = 0 && 0x102000 ≤ pgPhyAddr)
  let s ← state
  if s.userPool.phyAddrStart ≤ pgPhyAddr then unmapPages .user pgCnt vaddr
  else unmapPages .kernel pgCnt vaddr
  vaddrRemove pf vaddr pgCnt

/-- Clear `pages` pages from `vaddr` on. -/
def zeroPages : Nat → Nat → Call Unit
  | 0, _ => pure ()
  | pages + 1, vaddr => do
    zeroPage vaddr
    zeroPages pages (vaddr + 4096)

/-- `get_kernel_pages`. -/
def getKernelPages (pages : Nat) : Call (Option Nat) := do
  match ← mallocPage .kernel pages with
  | none => pure none
  | some vaddr =>
    zeroPages pages vaddr
    pure (some vaddr)

/-- `get_a_page`: map the page of `vaddr`, `none` for `NULL`. The index is not checked against the
length of the bitmap; outside of it the store would hit other memory. -/
def getAPage (type : PoolType) (vaddr : Nat) : Call (Option Nat) := do
  let cur ← runningThread
  if cur.pgdir ≠ 0 ∧ type = .user then
    let bitIdx := (vaddr + 2 ^ 32 - cur.userprogVaddr.vaddrStart) % 2 ^ 32 / 4096
    assert (0 < bitIdx)
    access (bitIdx < 8 * cur.userprogVaddr.vaddrMap.btmpBytesLen)
    let s ← state
    storeTask s.cur { cur with userprogVaddr := { cur.userprogVaddr with
      vaddrMap := bitmapSet cur.userprogVaddr.vaddrMap bitIdx true } }
  else if cur.pgdir = 0 ∧ type = .kernel then
    let s ← state
    let bitIdx := (vaddr + 2 ^ 32 - s.kernelVaddr.vaddrStart) % 2 ^ 32 / 4096
    assert (0 < bitIdx)
    access (bitIdx < 8 * s.kernelVaddr.vaddrMap.btmpBytesLen)
    update fun s =>
      { s with kernelVaddr := { s.kernelVaddr with
          vaddrMap := bitmapSet s.kernelVaddr.vaddrMap bitIdx true } }
  else
    halt .assertFailed
  match ← palloc type with
  | none => pure none
  | some pagePhyaddr =>
    pageTableAdd vaddr pagePhyaddr
    pure (some vaddr)

/-- `get_a_page_without_opvaddrbitmap`. -/
def getAPageWithoutOpvaddrbitmap (pf : PoolType) (vaddr : Nat) : Call (Option Nat) := do
  match ← palloc pf with
  | none => pure none
  | some pagePhyaddr =>
    pageTableAdd vaddr pagePhyaddr
    pure (some vaddr)

end LosKernel.Mm
