import LosKernel.Mm.AddressSpace

/-!
# The layout of the pools

`mem_pool_init` of `kernel/losmemory.c` with all that it computes. The number of free pages goes
through a variable of 16 bits, so from 258 MB on the memory above is lost, and the layout is sound
for less memory only.
-/

namespace LosKernel.Mm

/-- A range of addresses, from `start` on. -/
structure Extent where
  start : Nat
  size : Nat

/-- The two extents have no address in common. -/
def Extent.Apart (a b : Extent) : Prop := a.start + a.size ≤ b.start ∨ b.start + b.size ≤ a.start

/-- All of `a` lies between `low` and `high`. -/
def Extent.Within (a : Extent) (low high : Nat) : Prop := low ≤ a.start ∧ a.start + a.size ≤ high

/-- What `mem_pool_init` computes: the frames of the pools (`phy_addr_start` and `size`) and the
bytes of the bitmaps (`bits` and `btmp_bytes_len`). -/
structure PoolInit where
  kernelPool : Extent
  userPool : Extent
  kernelBits : Extent
  userBits : Extent
  vaddrBits : Extent
  vaddrStart : Nat

/-- `mem_pool_init`. The number of free pages is kept in 16 bits. -/
def memPoolInit (allMem : Nat) : PoolInit :=
  let pageTableSize := 4096 * 256
  let usedMem := pageTableSize + 0x100000
  let freeMem := (allMem + 2 ^ 32 - usedMem) % 2 ^ 32
  let allFreePages := freeMem / 4096 % 2 ^ 16
  let kernelFreePages := allFreePages / 2
  let userFreePages := allFreePages - kernelFreePages
  let kbmLength := kernelFreePages / 8
  let ubmLength := userFreePages / 8
  let kpStart := usedMem
  let upStart := kpStart + kernelFreePages * 4096
  { kernelPool := ⟨kpStart, kernelFreePages * 4096⟩
    userPool := ⟨upStart, userFreePages * 4096⟩
    kernelBits := ⟨0xc009a000, kbmLength⟩
    userBits := ⟨0xc009a000 + kbmLength, ubmLength⟩
    vaddrBits := ⟨0xc009a000 + kbmLength + ubmLength, kbmLength⟩
    vaddrStart := 0xc0100000 }

/-- The kernel starts with these pools. -/
theorem boot_pools (ram : Nat → Nat → Nat) (slack : Bytes) (allMem : Nat) :
    let s := Vm.boot ram slack allMem
    let init := memPoolInit allMem
    s.kernelPool.phyAddrStart = init.kernelPool.start ∧
      s.kernelPool.poolMap.btmpBytesLen = init.kernelBits.size ∧
      s.userPool.phyAddrStart = init.userPool.start ∧
      s.userPool.poolMap.btmpBytesLen = init.userBits.size ∧
      s.kernelVaddr.vaddrStart = init.vaddrStart ∧
      s.kernelVaddr.vaddrMap.btmpBytesLen = init.vaddrBits.size :=
  ⟨rfl, rfl, rfl, rfl, rfl, rfl⟩

/-- The pools lie apart in the free memory and contain all of its pages, every bit of their bitmaps
stands for one of their pages, and the bitmaps lie apart in the four pages before the control block
of the main thread. -/
structure PoolInit.Sound (init : PoolInit) (allMem : Nat) : Prop where
  kernelInside : init.kernelPool.Within 0x200000 allMem
  userInside : init.userPool.Within 0x200000 allMem
  poolsApart : init.kernelPool.Apart init.userPool
  complete : ∀ n < (allMem - 0x200000) / 4096,
    let page : Extent := ⟨0x200000 + n * 4096, 4096⟩
    page.Within init.kernelPool.start (init.kernelPool.start + init.kernelPool.size) ∨
      page.Within init.userPool.start (init.userPool.start + init.userPool.size)
  kernelPages : 8 * init.kernelBits.size * 4096 ≤ init.kernelPool.size
  userPages : 8 * init.userBits.size * 4096 ≤ init.userPool.size
  bitsApart : init.kernelBits.Apart init.userBits ∧ init.kernelBits.Apart init.vaddrBits ∧
    init.userBits.Apart init.vaddrBits
  bitsInside : ∀ bits ∈ [init.kernelBits, init.userBits, init.vaddrBits],
    bits.Within 0xc009a000 0xc009e000

/-- For a memory of 2 MB to 512 MB the layout is sound if and only if the memory is smaller than
258 MB, so that the number of its free pages fits into 16 bits. -/
theorem mem_pool_init_sound_iff {allMem : Nat} (hlow : 0x200000 ≤ allMem)
    (hhigh : allMem ≤ 0x20000000) : (memPoolInit allMem).Sound allMem ↔ allMem < 0x10200000 := by
  generalize hpages : (allMem - 0x200000) / 4096 % 2 ^ 16 = pages
  have hfree : (allMem + 2 ^ 32 - (4096 * 256 + 0x100000)) % 2 ^ 32 = allMem - 0x200000 := by omega
  simp only [memPoolInit, hfree, hpages]
  constructor
  · intro h
    by_contra hlarge
    -- the page after the last one that is counted belongs to no pool
    have hlost := h.complete pages (by omega)
    simp only [Extent.Within] at hlost
    omega
  · intro hsmall
    constructor <;> simp only [Extent.Within, Extent.Apart, List.forall_mem_cons, List.not_mem_nil,
      false_implies, implies_true, and_true] <;> omega

/-- The pools of a machine with 32 MB. -/
theorem mem_pool_init_small : (memPoolInit 0x2000000).Sound 0x2000000 :=
  (mem_pool_init_sound_iff (by decide) (by decide)).2 (by decide)

/-- In a machine with 512 MB the page at 258 MB belongs to no pool. -/
theorem mem_pool_init_large : ¬(memPoolInit 0x20000000).Sound 0x20000000 := by
  intro h
  have hlost := h.complete 0x10000 (by decide)
  revert hlost
  simp only [Extent.Within]
  decide

end LosKernel.Mm
