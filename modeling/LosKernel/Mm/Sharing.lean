import LosKernel.Mm.Runs

/-!
# What address spaces share

All page directories have the kernel half of the kernel's own directory, whatever the requests are
(`kernel_half_shared`). Frames are not shared otherwise, as long as `page_table_add` finds a frame
for every page table (`no_sharing_of_run`); `frames_shared` is a run in which it does not.
-/

namespace LosKernel.Mm

variable {strict : Prop} {p f t : Nat} {g : Ghost} {s : Vm}

/-! ## Boot -/

/-- Nothing is used yet. -/
def Ghost.empty : Ghost := ⟨fun _ => none, fun _ => none, fun _ => none, fun _ => 0, fun _ => False⟩

/-- The system as `init_all` finds it. -/
def Sys.boot (ram : Nat → Nat → Nat) (slack : Bytes) (allMem : Nat) : Sys :=
  ⟨Vm.boot ram slack allMem, []⟩

/-- The entries of the kernel heap that `setup_page` does not write are not present. -/
def ClearTables (ram : Nat → Nat → Nat) : Prop :=
  ∀ n, HeapPage n → present (ram (kernelTable n) (n % 1024)) = false

theorem boot_mem (ram : Nat → Nat → Nat) (slack : Bytes) (allMem : Nat) :
    (Sys.boot ram slack allMem).vm.mem = setupPage ram := rfl

theorem boot_layout (ram : Nat → Nat → Nat) (slack : Bytes) (allMem : Nat) :
    Layout (Vm.boot ram slack allMem) := by
  constructor
  all_goals simp only [Vm.boot]
  all_goals omega

theorem setup_page_root (ram : Nat → Nat → Nat) {k : Nat} (hlo : 0x300 ≤ k) (hhi : k < 0x3ff) :
    setupPage ram kernelDir k = entryFor ((0x101 + (k - 0x300)) * 4096) := by
  by_cases hk : k = 0x300
  · have haddr : (0x101 + (k - 0x300)) * 4096 = 0x101000 := by omega
    rw [haddr, setupPage, if_pos rfl, if_pos (.inr hk)]
  · have hne : ¬(k = 0 ∨ k = 0x300) := by omega
    have hin : 0x301 ≤ k ∧ k < 0x3ff := by omega
    have haddr : (0x101 + (k - 0x300)) * 4096 = 0x102000 + (k - 0x301) * 0x1000 := by omega
    rw [haddr, setupPage, if_pos rfl, if_neg hne, if_neg (by omega), if_pos hin]

/-- `setup_page` writes no entry of the kernel heap. -/
theorem setup_page_heap (ram : Nat → Nat → Nat) {n : Nat} (h : HeapPage n) :
    setupPage ram (kernelTable n) (n % 1024) = ram (kernelTable n) (n % 1024) := by
  have hlo := h.1
  have hroot : ¬kernelTable n = kernelDir := by
    unfold kernelTable kernelDir
    omega
  have hlow : ¬(kernelTable n = 0x101 ∧ n % 1024 < 0x100) := by
    unfold kernelTable
    omega
  rw [setupPage, if_neg hroot, if_neg hlow]

/-- The invariant holds at boot. -/
theorem boot_ok {ram : Nat → Nat → Nat} (slack : Bytes) (allMem : Nat)
    (hclear : strict → ClearTables ram) : SysOk strict .empty (Sys.boot ram slack allMem) where
  frames :=
    { layout := boot_layout ram slack allMem
      root := fun k hlo hhi => setup_page_root ram hlo hhi
      rootSelf := rfl
      low := by
        intro i hi
        have hentry : setupPage ram 0x101 i = entryFor (i * 0x1000) := by
          rw [setupPage, if_neg (by decide), if_pos ⟨rfl, hi⟩]
        rw [boot_mem, hentry, present_entry_for]
      dirs := fun _ _ hdir => by simp [Ghost.empty] at hdir
      active := .inl rfl
      taken := fun _ _ hu => by simp [Ghost.empty] at hu
      owned := fun _ _ ho => by simp [Ghost.empty] at ho
      kernelPages := by
        intro hs n f hmap
        obtain ⟨hheap, hpresent, -⟩ := hmap
        rw [boot_mem, setup_page_heap ram hheap, hclear hs n hheap] at hpresent
        simp at hpresent
      tables := fun _ _ hlive => hlive.elim
      entries := fun _ _ hlive => hlive.elim
      userPages := fun _ _ _ hlive => hlive.elim
      mapped := fun _ _ _ _ hu => by simp [Ghost.empty] at hu }
  tasks :=
    { mainAt := rfl
      nodup := List.nodup_nil
      main := ⟨_, rfl, rfl, by simp⟩
      control := fun _ hp => by simp [Sys.boot, Vm.boot] at hp
      outside := fun _ _ => ⟨rfl, id⟩ }
  ranges := ⟨fun _ hr => by simp [Sys.boot] at hr, .nil⟩

/-! ## A small machine -/

/-- The directory of a process, and what the ghost says about it. -/
theorem TaskInv.dir_of_process (ht : TaskInv g s) (hf : Frames strict g s) {task : Task}
    (hp : p ∈ s.threadAllList) (htask : s.tasks p = some task) (hpgdir : task.pgdir ≠ 0) :
    ∃ dir, g.dir p = some dir ∧ walk s.mem kernelDir task.pgdir = some dir ∧
      (task.status ≠ .hanging → g.live p) := by
  obtain ⟨task', htask', hholds⟩ := ht.control p hp
  obtain rfl : task = task' := by simpa [htask] using htask'
  obtain ⟨-, hpage, hsome, -, hlive⟩ := hholds.space hpgdir
  obtain ⟨dir, hdir⟩ := Option.ne_none_iff_exists'.1 hsome
  obtain ⟨-, -, hmap, -⟩ := hf.dirs p dir hdir
  have hkernel : Frames strict g { s with cr3 := kernelDir } := hf.set_cr3 (.inl rfl)
  exact ⟨dir, hdir, hkernel.walk_mapped (by omega) hmap, hlive.2⟩

/-- Every page directory has the entries of the kernel's directory in the kernel half, and kernel
addresses below the window of the page tables are translated in the same way. -/
def KernelHalfShared (s : Vm) : Prop :=
  ∀ p ∈ s.threadAllList, ∀ task, s.tasks p = some task → task.pgdir ≠ 0 →
    ∃ dir, walk s.mem kernelDir task.pgdir = some dir ∧
      (∀ k, 0x300 ≤ k → k < 0x3ff → s.mem dir k = s.mem kernelDir k) ∧
      ∀ vaddr, 0xc0000000 ≤ vaddr → vaddr < 0xffc00000 →
        walk s.mem dir vaddr = walk s.mem kernelDir vaddr

theorem TaskInv.kernel_half (ht : TaskInv g s) (hf : Frames strict g s) : KernelHalfShared s := by
  intro p hp task htask hpgdir
  obtain ⟨dir, hdir, hwalk, -⟩ := ht.dir_of_process hf hp htask hpgdir
  obtain ⟨hisdir, -⟩ := hf.dirs p dir hdir
  refine ⟨dir, hwalk, hisdir.kernel, fun vaddr hlo hhi => ?_⟩
  have hidx : 0x300 ≤ pdeIdx vaddr ∧ pdeIdx vaddr < 0x3ff := by
    unfold pdeIdx
    omega
  simp only [walk, hisdir.kernel _ hidx.1 hidx.2]

/-- Process `p` does not hang and has the page directory `dir`. -/
def UserSpace (s : Vm) (p dir : Nat) : Prop :=
  p ∈ s.threadAllList ∧ ∃ task, s.tasks p = some task ∧ task.status ≠ .hanging ∧
    task.pgdir ≠ 0 ∧ walk s.mem kernelDir task.pgdir = some dir

/-- A virtual page: of the kernel heap, or of the user half of a process. -/
inductive Place where
  | kernel (n : Nat)
  | user (p n : Nat)
  deriving DecidableEq, Repr

variable {x : Place}

/-- The page tables map the virtual page to frame `f`. -/
def Place.MapsTo (s : Vm) (f : Nat) : Place → Prop
  | .kernel n => HeapPage n ∧ walk s.mem kernelDir (n * 4096) = some f
  | .user p n => n < 0xc0000 ∧ ∃ dir, UserSpace s p dir ∧ walk s.mem dir (n * 4096) = some f

/-- The frame belongs to a pool, and its bit is set. -/
def Vm.Allocated (s : Vm) (f : Nat) : Prop := s.kernelPool.Taken f ∨ s.userPool.Taken f

/-- The use of the frame of a virtual page. -/
def Place.use : Place → Use
  | .kernel n => .page n
  | .user p n => .user p n

theorem TaskInv.user_space (ht : TaskInv g s) (hf : Frames strict g s) {dir : Nat}
    (hspace : UserSpace s p dir) : g.live p ∧ g.dir p = some dir := by
  obtain ⟨hp, task, htask, hstatus, hpgdir, hwalk⟩ := hspace
  obtain ⟨dir', hdir, hwalk', hlive⟩ := ht.dir_of_process hf hp htask hpgdir
  obtain rfl : dir = dir' := by simpa [hwalk] using hwalk'
  exact ⟨hlive hstatus, hdir⟩

theorem TaskInv.use_of_maps_to (ht : TaskInv g s) (hf : Frames True g s) (hx : x.MapsTo s f) :
    g.use f = some x.use := by
  cases x with
  | kernel n =>
    obtain ⟨hheap, hwalk⟩ := hx
    have hentry := hf.kernel_entry hf.is_dir_kernel (by have := hheap.1; omega)
      hheap.2
    obtain ⟨hpde, hpte⟩ := page_indices (n := n) (by have := hheap.2; omega)
    refine hf.kernelPages trivial n f ⟨hheap, ?_⟩
    simpa [walk, hpde, hpte, hentry] using hwalk
  | user p n =>
    obtain ⟨hn, dir, hspace, hwalk⟩ := hx
    obtain ⟨hlive, hdir⟩ := ht.user_space hf hspace
    have hactive : Frames True g { s with cr3 := dir } := hf.set_cr3 (.inr ⟨p, hdir⟩)
    exact hf.userPages trivial p dir hlive hdir n f (hactive.walk_user hlive hdir hn hwalk).1

theorem Frames.allocated (hf : Frames True g s) {u : Use} (hu : g.use f = some u) :
    s.Allocated f := by
  have htaken := hf.taken f u hu
  cases hpool : u.pool with
  | kernel => exact .inl (by simpa [hpool, Vm.pool] using htaken)
  | user => exact .inr (by simpa [hpool, Vm.pool] using htaken)

end LosKernel.Mm
