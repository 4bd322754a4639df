import LosKernel.Mm.Tables

/-!
# The use of frames

The invariant behind the results on address spaces.

`Frames strict g s` says that the page tables of `s` agree with `g`. With `strict` false it covers
the kernel half of the address spaces only and allows page tables at frame 0, which
`page_table_add` installs when the pool of the kernel is empty.
-/

namespace LosKernel.Mm

open Function (update update_of_ne update_self)

/-- What a frame is used for: a page of the kernel, a page table or a page of a process. -/
inductive Use where
  | page (n : Nat)
  | table (p i : Nat)
  | user (p n : Nat)

/-- The pool that frames for a use come from. -/
def Use.pool : Use → PoolType
  | .page _ => .kernel
  | .table _ _ => .kernel
  | .user _ _ => .user

/-- Who holds a page of the kernel heap. A page is `reserved` from the moment its bit is set until
it is mapped, and while it is being freed. -/
inductive Owner where
  | reserved
  | pcb (p : Nat)
  | dir (p : Nat)
  | bits (p : Nat)
  | range (start : Nat)
  deriving DecidableEq

/-- What the page tables are meant to say. `dir p` is the frame of the page directory of
process `p`, `dirPage p` is the kernel page that holds it, and `live p` says that its user
half is in use. -/
structure Ghost where
  use : Nat → Option Use
  owner : Nat → Option Owner
  dir : Nat → Option Nat
  dirPage : Nat → Nat
  live : Nat → Prop

variable {p dir dir' n t f i k x w q m : Nat} {use : Nat → Option Use} {mem : Nat → Nat → Nat}
  {strict : Prop} {g : Ghost} {s last : Vm} {u : Use}

/-- Frame `f` belongs to the pool and its bit is set. -/
def Pool.Taken (pool : Pool) (f : Nat) : Prop :=
  ∃ b < 8 * pool.poolMap.btmpBytesLen, f * 4096 = pool.phyAddrStart + b * 4096 ∧
    bitmapScanTest pool.poolMap b = true

/-- Page number `n` belongs to the kernel heap, below the window of the page tables. -/
def HeapPage (n : Nat) : Prop := 0xc0100 ≤ n ∧ n < 0xffc00

/-- The page table that holds the entry of kernel page `n`, as the loader placed it. -/
def kernelTable (n : Nat) : Nat := 0x101 + (n / 1024 - 0x300)

/-- Kernel page `n` is mapped to frame `f`. -/
def KernelMap (mem : Nat → Nat → Nat) (n f : Nat) : Prop :=
  HeapPage n ∧ present (mem (kernelTable n) (n % 1024)) = true ∧
    frameOf (mem (kernelTable n) (n % 1024)) = f

/-- Entry `i` of the user half of directory `dir` refers to the page table `t`. -/
def TableAt (mem : Nat → Nat → Nat) (dir i t : Nat) : Prop :=
  i < 0x300 ∧ present (mem dir i) = true ∧ frameOf (mem dir i) = t

/-- User page `n` is mapped to frame `f` by directory `dir`. -/
def UserMap (mem : Nat → Nat → Nat) (dir n f : Nat) : Prop :=
  ∃ t, TableAt mem dir (n / 1024) t ∧ present (mem t (n % 1024)) = true ∧
    frameOf (mem t (n % 1024)) = f

/-- A page directory: its kernel half is that of the kernel, and its last entry is itself. -/
structure IsDir (mem : Nat → Nat → Nat) (dir : Nat) : Prop where
  kernel : ∀ k, 0x300 ≤ k → k < 0x3ff → mem dir k = mem kernelDir k
  self : mem dir 0x3ff = entryFor (dir * 4096)

theorem IsDir.self_mapped (h : IsDir mem dir) : SelfMapped mem dir := by
  have hself : mem dir 1023 = entryFor (dir * 4096) := h.self
  simp [SelfMapped, hself]

/-- Kernel page `n` is mapped to frame `f`, and that is the use of the frame. -/
def Mapped (g : Ghost) (mem : Nat → Nat → Nat) (n f : Nat) : Prop :=
  KernelMap mem n f ∧ g.use f = some (.page n)

/-- The pools and the virtual pages of the kernel as `mem_pool_init` lays them out. -/
structure Layout (s : Vm) : Prop where
  kernelStart : s.kernelPool.phyAddrStart = 0x200000
  poolsApart : 0x200000 + 8 * s.kernelPool.poolMap.btmpBytesLen * 4096 ≤ s.userPool.phyAddrStart
  userStart : s.userPool.phyAddrStart % 4096 = 0
  userEnd : s.userPool.phyAddrStart + 8 * s.userPool.poolMap.btmpBytesLen * 4096 ≤ 2 ^ 32
  heapStart : s.kernelVaddr.vaddrStart = 0xc0100000
  heapEnd : 0xc0100 + 8 * s.kernelVaddr.vaddrMap.btmpBytesLen + 1 ≤ 0xffc00

/-- The layout does not depend on the words of the memory. -/
theorem Layout.of_mem (h : Layout s) (mem : Nat → Nat → Nat) : Layout { s with mem := mem } :=
  ⟨h.1, h.2, h.3, h.4, h.5, h.6⟩

/-- The page tables agree with `g`. -/
structure Frames (strict : Prop) (g : Ghost) (s : Vm) : Prop where
  layout : Layout s
  root : ∀ k, 0x300 ≤ k → k < 0x3ff → s.mem kernelDir k = entryFor ((0x101 + (k - 0x300)) * 4096)
  rootSelf : s.mem kernelDir 0x3ff = entryFor (kernelDir * 4096)
  low : ∀ i < 0x100, present (s.mem 0x101 i) = true
  dirs : ∀ p dir, g.dir p = some dir →
    IsDir s.mem dir ∧ g.owner (g.dirPage p) = some (.dir p) ∧ Mapped g s.mem (g.dirPage p) dir
  active : s.cr3 = kernelDir ∨ ∃ p, g.dir p = some s.cr3
  taken : ∀ f u, g.use f = some u → (s.pool u.pool).Taken f
  owned : ∀ n o, g.owner n = some o → HeapPage n ∧
    bitmapScanTest s.kernelVaddr.vaddrMap (n - 0xc0100) = true ∧
    (o ≠ .reserved → ∃ f, Mapped g s.mem n f)
  kernelPages : strict → ∀ n f, KernelMap s.mem n f → g.use f = some (.page n)
  tables : ∀ p dir, g.live p → g.dir p = some dir → ∀ i t, TableAt s.mem dir i t →
    ¬strict ∧ t = 0 ∨ g.use t = some (.table p i)
  entries : ∀ p dir, g.live p → g.dir p = some dir → ∀ i t, TableAt s.mem dir i t →
    ∀ j, s.mem t j = 0 ∨ s.userPool.phyAddrStart ≤ frameOf (s.mem t j) * 4096
  userPages : strict → ∀ p dir, g.live p → g.dir p = some dir → ∀ n f, UserMap s.mem dir n f →
    g.use f = some (.user p n)
  mapped : strict → ∀ f p n, g.use f = some (.user p n) →
    g.live p ∧ ∃ dir, g.dir p = some dir ∧ UserMap s.mem dir n f

/-! ## Where the frames are -/

section

variable (h : Frames strict g s)

include h

theorem Frames.kernel_frame (hf : g.use f = some u) (hu : u.pool = .kernel) :
    0x200 ≤ f ∧ f * 4096 < s.userPool.phyAddrStart := by
  obtain ⟨b, hb, haddr, -⟩ := h.taken f u hf
  rw [hu] at hb haddr
  have hstart := h.layout.kernelStart
  have hapart := h.layout.poolsApart
  simp only [Vm.pool] at hb haddr
  omega

theorem Frames.user_frame (hf : g.use f = some (.user p n)) :
    s.userPool.phyAddrStart ≤ f * 4096 := by
  obtain ⟨b, -, haddr, -⟩ := h.taken f _ hf
  simp only [Use.pool, Vm.pool] at haddr
  omega

theorem Frames.dir_use (hdir : g.dir p = some dir) :
    ∃ n, g.owner n = some (.dir p) ∧ g.use dir = some (.page n) := by
  obtain ⟨-, howner, -, huse⟩ := h.dirs p dir hdir
  exact ⟨_, howner, huse⟩

/-- The frame of a page directory lies in the pool of the kernel. -/
theorem Frames.dir_frame (hdir : g.dir p = some dir) :
    0x200 ≤ dir ∧ dir * 4096 < s.userPool.phyAddrStart := by
  obtain ⟨n, -, huse⟩ := h.dir_use hdir
  exact h.kernel_frame huse rfl

theorem Frames.dir_inj (hp : g.dir p = some dir) (hq : g.dir q = some dir) : p = q := by
  obtain ⟨n, hn, huse⟩ := h.dir_use hp
  obtain ⟨m, hm, huse'⟩ := h.dir_use hq
  obtain rfl : n = m := by simpa [huse] using huse'
  simpa [hn] using hm

theorem Frames.table_ne_dir (hlive : g.live p) (hdir : g.dir p = some dir)
    (ht : TableAt s.mem dir i t) (hq : g.dir q = some dir') : t ≠ dir' := by
  rintro rfl
  obtain ⟨n, -, huse⟩ := h.dir_use hq
  rcases h.tables p dir hlive hdir i t ht with ⟨-, rfl⟩ | htable
  · have := h.dir_frame hq
    omega
  · simp [huse] at htable

/-- The page tables of a process are not among those of the kernel half. -/
theorem Frames.table_frame (hlive : g.live p) (hdir : g.dir p = some dir)
    (ht : TableAt s.mem dir i t) :
    t = 0 ∧ ¬strict ∨ 0x200 ≤ t ∧ t * 4096 < s.userPool.phyAddrStart := by
  rcases h.tables p dir hlive hdir i t ht with ⟨hs, ht⟩ | htable
  · exact .inl ⟨ht, hs⟩
  · exact .inr (h.kernel_frame htable rfl)

theorem Frames.is_dir_kernel : IsDir s.mem kernelDir :=
  ⟨fun _ _ _ => rfl, h.rootSelf⟩

theorem Frames.is_dir_active : IsDir s.mem s.cr3 := by
  rcases h.active with hcr3 | ⟨p, hp⟩
  · rw [hcr3]
    exact h.is_dir_kernel
  · exact (h.dirs p _ hp).1

end

theorem kernel_table_lt (h : n < 0xffc00) : kernelTable n < 0x200 := by
  unfold kernelTable
  omega

theorem kernel_table_ge (n : Nat) : 0x101 ≤ kernelTable n := by
  unfold kernelTable
  omega

/-- Every directory finds the entry of a kernel page in the same page table. -/
theorem Frames.kernel_entry (h : Frames strict g s) (hdir : IsDir s.mem dir) (hlo : 0xc0000 ≤ n)
    (hhi : n < 0xffc00) : s.mem dir (n / 1024) = entryFor (kernelTable n * 4096) := by
  rw [hdir.kernel (n / 1024) (by omega) (by omega), h.root (n / 1024) (by omega) (by omega)]
  rfl

/-! ## Elementary changes -/

/-- The frames whose words the invariant speaks about. -/
def Protected (g : Ghost) (mem : Nat → Nat → Nat) (x : Nat) : Prop :=
  x = kernelDir ∨ (0x101 ≤ x ∧ x < 0x200) ∨ (∃ p, g.dir p = some x) ∨
    ∃ p dir i, g.live p ∧ g.dir p = some dir ∧ TableAt mem dir i x

/-- The kernel pages are those that the page tables of the kernel half say. -/
theorem kernel_map_of_tables {mem' : Nat → Nat → Nat}
    (hlow : ∀ x, 0x101 ≤ x → x < 0x200 → mem' x = mem x) (n f : Nat) :
    KernelMap mem' n f ↔ KernelMap mem n f := by
  unfold KernelMap
  by_cases hn : HeapPage n
  · rw [hlow _ (kernel_table_ge n) (kernel_table_lt hn.2)]
  · simp [hn]

/-- `last` differs from `s` in its memory and in bits of the pools only, and each frame with a use
is taken. -/
structure Backed (use : Nat → Option Use) (s last : Vm) : Prop where
  cr3 : last.cr3 = s.cr3
  vaddr : last.kernelVaddr = s.kernelVaddr
  layout : Layout last
  user : last.userPool.phyAddrStart = s.userPool.phyAddrStart
  taken : ∀ f u, use f = some u → (last.pool u.pool).Taken f

section

variable (h : Frames strict g s)

include h

theorem Frames.backed (mem : Nat → Nat → Nat) : Backed g.use s { s with mem := mem } :=
  ⟨rfl, rfl, h.layout.of_mem mem, rfl, h.taken⟩

/-- The pages that are owned stay so while they stay mapped. -/
theorem Frames.owned_of (hvaddr : last.kernelVaddr = s.kernelVaddr) {g' : Ghost}
    (hmapped : ∀ n o f, g.owner n = some o → o ≠ .reserved → Mapped g s.mem n f →
      Mapped g' last.mem n f) (n : Nat) (o : Owner) (ho : g.owner n = some o) : HeapPage n ∧
    bitmapScanTest last.kernelVaddr.vaddrMap (n - 0xc0100) = true ∧
    (o ≠ .reserved → ∃ f, Mapped g' last.mem n f) := by
  obtain ⟨hn, hbit, hexists⟩ := h.owned n o ho
  refine ⟨hn, by rwa [hvaddr], fun hne => ?_⟩
  obtain ⟨f, hmap⟩ := hexists hne
  exact ⟨f, hmapped n o f ho hne hmap⟩

/-- The page directories and the page tables of the processes are kept, and the pages that are
owned stay mapped. -/
theorem Frames.of_tables (hroot : last.mem kernelDir = s.mem kernelDir)
    (hlow : ∀ i < 0x100, last.mem 0x101 i = s.mem 0x101 i)
    (hdir : ∀ p dir, g.dir p = some dir → last.mem dir = s.mem dir)
    (hwords : ∀ p dir, g.live p → g.dir p = some dir → ∀ i t, TableAt s.mem dir i t →
      last.mem t = s.mem t) (hbacked : Backed use s last)
    (hmapped : ∀ n o f, g.owner n = some o → o ≠ .reserved → Mapped g s.mem n f →
      Mapped { g with use := use } last.mem n f)
    (hpages : strict → ∀ n f, KernelMap last.mem n f → use f = some (.page n))
    (hkeep : ∀ f u, g.use f = some u → (∀ n, u ≠ .page n) → use f = some u)
    (hback : ∀ f p n, use f = some (.user p n) → g.use f = some (.user p n)) :
    Frames strict { g with use := use } last := by
  have htable : ∀ p dir, g.dir p = some dir → ∀ i t,
      TableAt last.mem dir i t ↔ TableAt s.mem dir i t := by
    intro p dir hp i t
    unfold TableAt
    rw [hdir p dir hp]
  refine ⟨hbacked.layout, hroot ▸ h.root, hroot ▸ h.rootSelf, fun i hi => ?_, ?_,
    hbacked.cr3 ▸ h.active, hbacked.taken, h.owned_of hbacked.vaddr hmapped, hpages, ?_, ?_, ?_, ?_⟩
  · rw [hlow i hi]
    exact h.low i hi
  · intro p dir hp
    obtain ⟨hisdir, howner, hmap⟩ := h.dirs p dir hp
    refine ⟨⟨fun k hlo hhi => ?_, ?_⟩, howner, hmapped _ _ dir howner (by simp) hmap⟩
    · rw [hdir p dir hp, hroot]
      exact hisdir.kernel k hlo hhi
    · rw [hdir p dir hp]
      exact hisdir.self
  · intro p dir hl hp i t ht
    rw [htable p dir hp] at ht
    rcases h.tables p dir hl hp i t ht with hzero | huse
    · exact .inl hzero
    · exact .inr (hkeep t _ huse (by simp))
  · intro p dir hl hp i t ht
    rw [htable p dir hp] at ht
    rw [hwords p dir hl hp i t ht, hbacked.user]
    exact h.entries p dir hl hp i t ht
  · intro hs p dir hl hp n f ⟨t, ht, hpage⟩
    rw [htable p dir hp] at ht
    rw [hwords p dir hl hp _ t ht] at hpage
    exact hkeep f _ (h.userPages hs p dir hl hp n f ⟨t, ht, hpage⟩) (by simp)
  · intro hs f p n huse
    obtain ⟨hl, dir, hp, t, ht, hpage⟩ := h.mapped hs f p n (hback f p n huse)
    refine ⟨hl, dir, hp, t, (htable p dir hp _ t).2 ht, ?_⟩
    rwa [hwords p dir hl hp _ t ht]

/-- Only the words of the page directories and page tables matter. -/
theorem Frames.of_mem (hmem : ∀ x, Protected g s.mem x → mem x = s.mem x) :
    Frames strict g { s with mem := mem } := by
  have hlow : ∀ x, 0x101 ≤ x → x < 0x200 → mem x = s.mem x :=
    fun x hlo hhi => hmem x (.inr (.inl ⟨hlo, hhi⟩))
  have hkernel := kernel_map_of_tables hlow
  exact h.of_tables (hmem _ (.inl rfl)) (fun i _ => congrFun (hlow _ (by decide) (by decide)) i)
    (fun p dir hp => hmem dir (.inr (.inr (.inl ⟨p, hp⟩))))
    (fun p dir hl hp i t ht => hmem t (.inr (.inr (.inr ⟨p, dir, i, hl, hp, ht⟩))))
    (h.backed mem) (fun n _ f _ _ hm => ⟨(hkernel n f).2 hm.1, hm.2⟩)
    (fun hs n f hmap => h.kernelPages hs n f ((hkernel n f).1 hmap)) (fun _ _ hu _ => hu)
    fun _ _ _ hu => hu

end

/-- A frame that holds neither a page directory nor a page table. -/
structure Plain (g : Ghost) (x : Nat) : Prop where
  pool : 0x200 ≤ x
  dir : ∀ p, g.dir p ≠ some x
  table : ∀ p i, g.use x ≠ some (.table p i)

/-- A store to a page that is no page table. -/
theorem Frames.write_page (h : Frames strict g s) (hx : Plain g x) (words : Nat → Nat) :
    Frames strict g { s with mem := update s.mem x words } := by
  refine h.of_mem fun y hy => update_of_ne ?_ _ _
  rintro rfl
  rcases hy with rfl | ⟨-, hhi⟩ | ⟨p, hp⟩ | ⟨p, dir, i, hl, hp, ht⟩
  · exact absurd hx.pool (by decide)
  · exact absurd hx.pool (by omega)
  · exact hx.dir p hp
  · rcases h.tables p dir hl hp i y ht with ⟨-, rfl⟩ | htable
    · exact absurd hx.pool (by decide)
    · exact hx.table p i htable

theorem Frames.plain_user (h : Frames strict g s) (hx : s.userPool.phyAddrStart ≤ x * 4096) :
    Plain g x := by
  have hapart := h.layout.poolsApart
  refine ⟨by omega, fun p hp => ?_, fun p i huse => ?_⟩
  · have := h.dir_frame hp
    omega
  · have := h.kernel_frame huse rfl
    omega

/-- A frame that is mapped as a kernel page, other than a page directory in use, is plain. -/
theorem Frames.plain_mapped (h : Frames strict g s) (hmap : Mapped g s.mem n x)
    (howner : ∀ p, g.owner n = some (.dir p) → g.dir p = none) : Plain g x := by
  refine ⟨(h.kernel_frame hmap.2 rfl).1, fun p hp => ?_, fun p i huse => ?_⟩
  · obtain ⟨m, hm, huse⟩ := h.dir_use hp
    obtain rfl : n = m := by simpa [hmap.2] using huse
    simp [howner p hm] at hp
  · simp [hmap.2] at huse

/-- Pages of the kernel heap change hands and bits of the pools change. A page that holds a page
directory stays with it. -/
theorem Frames.of_owner (h : Frames strict g s) {owner : Nat → Option Owner}
    (hmem : last.mem = s.mem) (hcr3 : last.cr3 = s.cr3) (hlayout : Layout last)
    (huser : last.userPool.phyAddrStart = s.userPool.phyAddrStart)
    (htaken : ∀ f u, g.use f = some u → (last.pool u.pool).Taken f)
    (howned : ∀ n o, owner n = some o → HeapPage n ∧
      bitmapScanTest last.kernelVaddr.vaddrMap (n - 0xc0100) = true ∧
      (o ≠ .reserved → ∃ f, Mapped g s.mem n f))
    (hdir : ∀ n p, g.owner n = some (.dir p) → g.dir p ≠ none → owner n = some (.dir p)) :
    Frames strict { g with owner := owner } last := by
  refine ⟨hlayout, ?_, ?_, ?_, ?_, ?_, htaken, ?_, ?_, ?_, ?_, ?_, ?_⟩
  all_goals simp only [hmem, hcr3, huser]
  · exact h.root
  · exact h.rootSelf
  · exact h.low
  · intro p dir hp
    obtain ⟨hisdir, howner, hmap⟩ := h.dirs p dir hp
    exact ⟨hisdir, hdir _ p howner (by simp [hp]), hmap⟩
  · exact h.active
  · exact howned
  · exact h.kernelPages
  · exact h.tables
  · exact h.entries
  · exact h.userPages
  · exact h.mapped

/-- Bits of the pools change. -/
theorem Frames.of_pools (h : Frames strict g s) (hmem : last.mem = s.mem)
    (hbacked : Backed g.use s last) : Frames strict g last :=
  h.of_owner hmem hbacked.cr3 hbacked.layout hbacked.user hbacked.taken
    (hbacked.vaddr ▸ h.owned) fun _ _ ho _ => ho

/-- The invariant speaks about the memory, the active directory, the pools and the virtual pages of
the kernel only. -/
theorem Frames.congr (h : Frames strict g s) (hmem : last.mem = s.mem) (hcr3 : last.cr3 = s.cr3)
    (hkernel : last.kernelPool = s.kernelPool) (huser : last.userPool = s.userPool)
    (hvaddr : last.kernelVaddr = s.kernelVaddr) : Frames strict g last := by
  refine h.of_pools hmem ⟨hcr3, hvaddr, ?_, by rw [huser], ?_⟩
  · refine ⟨?_, ?_, ?_, ?_, ?_, ?_⟩
    all_goals simp only [hkernel, huser, hvaddr]
    exacts [h.layout.1, h.layout.2, h.layout.3, h.layout.4, h.layout.5, h.layout.6]
  · intro f u hf
    have htaken := h.taken f u hf
    cases hu : u.pool <;> rw [hu] at htaken <;> simpa [Vm.pool, hkernel, huser] using htaken

theorem set_kernel_word_ne (mem : Nat → Nat → Nat) (w : Nat) (hn : HeapPage n) (hm : HeapPage m)
    (hne : m ≠ n) :
    setWord mem (kernelTable n) (n % 1024) w (kernelTable m) (m % 1024) =
      mem (kernelTable m) (m % 1024) := by
  rw [set_word_apply, if_neg]
  intro ⟨htable, hidx⟩
  unfold kernelTable HeapPage at *
  omega

/-- A page stays mapped when the entry of another page is overwritten. -/
theorem Mapped.set_kernel_entry (h : Mapped g mem m f) (hn : HeapPage n) (hne : m ≠ n)
    (hkeep : ∀ f u, g.use f = some u → u ≠ .page n → use f = some u) :
    Mapped { g with use := use } (setWord mem (kernelTable n) (n % 1024) w) m f := by
  obtain ⟨⟨hm, hpresent, hframe⟩, huse⟩ := h
  refine ⟨⟨hm, ?_, ?_⟩, hkeep f _ huse (by simpa using hne)⟩
  · rwa [set_kernel_word_ne _ _ hn hm hne]
  · rwa [set_kernel_word_ne _ _ hn hm hne]

/-- The entry of a kernel page that nobody holds is overwritten, and only the use for that page
changes. -/
theorem Frames.set_kernel_entry (h : Frames strict g s) (hn : HeapPage n)
    (howner : ∀ o, g.owner n = some o → o = .reserved)
    (hmem : last.mem = setWord s.mem (kernelTable n) (n % 1024) w) (hbacked : Backed use s last)
    (hkeep : ∀ f u, g.use f = some u → u ≠ .page n → use f = some u)
    (hback : ∀ f u, use f = some u → g.use f = some u ∨ u = .page n)
    (hnew : strict → present w = true → use (frameOf w) = some (.page n)) :
    Frames strict { g with use := use } last := by
  have hge := kernel_table_ge n
  have hlt := kernel_table_lt hn.2
  have hne : ∀ x, x < 0x101 ∨ 0x200 ≤ x → last.mem x = s.mem x := by
    intro x hx
    rw [hmem, set_word_frame_ne _ _ _ (by omega)]
  refine h.of_tables (hne _ (.inl (by decide))) ?_
    (fun p dir hp => hne dir (.inr (h.dir_frame hp).1))
    ?_ hbacked ?_ ?_ (fun f u hu hpage => hkeep f u hu (hpage n))
    fun f p m hu => by simpa using hback f _ hu
  · intro i hi
    rw [hmem, set_word_apply, if_neg]
    intro ⟨htable, hidx⟩
    unfold kernelTable HeapPage at *
    omega
  · intro p dir hl hp i t ht
    refine hne t ?_
    rcases h.table_frame hl hp ht with ⟨rfl, -⟩ | ⟨hlo, -⟩
    · exact .inl (by decide)
    · exact .inr hlo
  · intro m o f ho hreserved hm
    rw [hmem]
    refine hm.set_kernel_entry hn ?_ hkeep
    rintro rfl
    exact hreserved (howner o ho)
  · intro hs m f ⟨hm, hpresent, hframe⟩
    by_cases hmn : m = n
    · subst hmn
      rw [hmem, set_word_same] at hpresent hframe
      rw [← hframe]
      exact hnew hs hpresent
    · rw [hmem, set_kernel_word_ne _ _ hn hm hmn] at hpresent hframe
      exact hkeep f _ (h.kernelPages hs m f ⟨hm, hpresent, hframe⟩) (by simpa using hmn)

/-- A page table belongs to one entry of one directory. -/
theorem Frames.table_inj (h : Frames strict g s) (hs : strict) (hlive : g.live p)
    (hdir : g.dir p = some dir) (ht : TableAt s.mem dir i t) (hl : g.live q)
    (hq : g.dir q = some dir') (ht' : TableAt s.mem dir' k t) : p = q ∧ i = k := by
  have huse : g.use t = some (.table p i) := by simpa [hs] using h.tables p dir hlive hdir i t ht
  simpa [hs, huse] using h.tables q dir' hl hq k t ht'

/-- What the kernel half says is kept when the page directories and its page tables are. -/
theorem Frames.kernel_half (h : Frames strict g s) (use : Nat → Option Use) (mem : Nat → Nat → Nat)
    (hroot : ∀ k, 0x300 ≤ k → mem kernelDir k = s.mem kernelDir k)
    (hlow : ∀ x, 0x101 ≤ x → x < 0x200 → mem x = s.mem x)
    (hdir : ∀ p dir, g.dir p = some dir → ∀ k, 0x300 ≤ k → mem dir k = s.mem dir k)
    (hkeep : ∀ f n, g.use f = some (.page n) → use f = some (.page n)) :
    (∀ k, 0x300 ≤ k → k < 0x3ff → mem kernelDir k = entryFor ((0x101 + (k - 0x300)) * 4096)) ∧
    mem kernelDir 0x3ff = entryFor (kernelDir * 4096) ∧
    (∀ i < 0x100, present (mem 0x101 i) = true) ∧
    (∀ p dir, g.dir p = some dir → IsDir mem dir ∧ g.owner (g.dirPage p) = some (.dir p) ∧
      Mapped { g with use := use } mem (g.dirPage p) dir) ∧
    (∀ n f, Mapped g s.mem n f → Mapped { g with use := use } mem n f) ∧
    ∀ n f, KernelMap mem n f → KernelMap s.mem n f := by
  have hkernel := kernel_map_of_tables hlow
  have hmapped : ∀ n f, Mapped g s.mem n f → Mapped { g with use := use } mem n f :=
    fun n f hm => ⟨(hkernel n f).2 hm.1, hkeep f n hm.2⟩
  refine ⟨fun k hlo hhi => ?_, ?_, fun i hi => ?_, fun p dir hp => ?_, hmapped,
    fun n f => (hkernel n f).1⟩
  · rw [hroot k hlo]
    exact h.root k hlo hhi
  · rw [hroot _ (by decide)]
    exact h.rootSelf
  · rw [hlow _ (by decide) (by decide)]
    exact h.low i hi
  · obtain ⟨hisdir, howner, hmap⟩ := h.dirs p dir hp
    refine ⟨⟨fun k hlo hhi => ?_, ?_⟩, howner, hmapped _ dir hmap⟩
    · rw [hdir p dir hp k hlo, hroot k hlo]
      exact hisdir.kernel k hlo hhi
    · rw [hdir p dir hp _ (by decide)]
      exact hisdir.self

/-- The entry of a page of a live process is overwritten, and only the use for that page
changes. -/
theorem Frames.set_user_entry (h : Frames strict g s) (hlive : g.live p)
    (hdir : g.dir p = some dir) (ht : TableAt s.mem dir (n / 1024) t)
    (hmem : last.mem = setWord s.mem t (n % 1024) w) (hbacked : Backed use s last)
    (hkeep : ∀ f u, g.use f = some u → u ≠ .user p n → strict ∨ u.pool = .kernel → use f = some u)
    (hback : strict → ∀ f u, use f = some u → g.use f = some u ∧ u ≠ .user p n ∨ u = .user p n ∧
      present w = true ∧ frameOf w = f) (hw : w = 0 ∨ s.userPool.phyAddrStart ≤ frameOf w * 4096)
    (hnew : strict → present w = true → use (frameOf w) = some (.user p n)) :
    Frames strict { g with use := use } last := by
  have hapart : t ≠ kernelDir ∧ (t < 0x101 ∨ 0x200 ≤ t) := by
    have hkernel : kernelDir = 0x100 := rfl
    rcases h.table_frame hlive hdir ht with ⟨rfl, -⟩ | ⟨hlo, -⟩ <;> omega
  have hne : ∀ x, x ≠ t → last.mem x = s.mem x := by
    intro x hx
    rw [hmem, set_word_frame_ne _ _ _ hx]
  have hdirs : ∀ q dir', g.dir q = some dir' → last.mem dir' = s.mem dir' :=
    fun q dir' hq => hne dir' (h.table_ne_dir hlive hdir ht hq).symm
  obtain ⟨hroot, hself, hlow, hisdirs, hmapped, hkernel⟩ :=
    h.kernel_half use last.mem
      (fun k _ => congrFun (hne _ hapart.1.symm) k) (fun x hlo hhi => hne x (by omega))
      (fun q dir' hq k _ => congrFun (hdirs q dir' hq) k)
      (fun f m hf => hkeep f _ hf (by simp) (.inr rfl))
  have htables : ∀ q dir', g.dir q = some dir' → ∀ i x, TableAt last.mem dir' i x ↔
      TableAt s.mem dir' i x := by
    intro q dir' hq i x
    unfold TableAt
    rw [hdirs q dir' hq]
  have htable : ∀ q dir', g.dir q = some dir' → ∀ i x, TableAt last.mem dir' i x →
      TableAt s.mem dir' i x := fun q dir' hq i x => (htables q dir' hq i x).1
  refine ⟨hbacked.layout, hroot, hself, hlow, hisdirs, hbacked.cr3 ▸ h.active, hbacked.taken,
    h.owned_of hbacked.vaddr fun m _ f _ _ => hmapped m f, ?_, ?_, ?_, ?_, ?_⟩
  · exact fun hs m f hmap =>
      hkeep f _ (h.kernelPages hs m f (hkernel m f hmap)) (by simp) (.inl hs)
  · intro q dir' hl hq i x hx
    rcases h.tables q dir' hl hq i x (htable q dir' hq i x hx) with hzero | huse
    · exact .inl hzero
    · exact .inr (hkeep x _ huse (by simp) (.inr rfl))
  · intro q dir' hl hq i x hx j
    rw [hmem, set_word_apply, hbacked.user]
    split
    · exact hw
    · exact h.entries q dir' hl hq i x (htable q dir' hq i x hx) j
  · intro hs q dir' hl hq m f ⟨x, hx, hpresent, hframe⟩
    have hx' := htable q dir' hq _ x hx
    by_cases hentry : x = t ∧ m % 1024 = n % 1024
    · obtain ⟨rfl, hidx⟩ := hentry
      obtain ⟨rfl, hpde⟩ := h.table_inj hs hlive hdir ht hl hq hx'
      obtain rfl : n = m := by omega
      rw [hmem, set_word_same] at hpresent hframe
      rw [← hframe]
      exact hnew hs hpresent
    · rw [hmem, set_word_apply, if_neg hentry] at hpresent hframe
      have hold := h.userPages hs q dir' hl hq m f ⟨x, hx', hpresent, hframe⟩
      refine hkeep f _ hold ?_ (.inl hs)
      rintro ⟨⟩
      refine hentry ⟨?_, rfl⟩
      obtain rfl : dir = dir' := by simpa [hdir] using hq
      exact hx'.2.2.symm.trans ht.2.2
  · intro hs f q m huse
    rcases hback hs f _ huse with ⟨hold, hne'⟩ | ⟨heq, hpresent, hframe⟩
    · obtain ⟨hl, dir', hq, x, hx, hpresent, hframe⟩ := h.mapped hs f q m hold
      refine ⟨hl, dir', hq, x, (htables q dir' hq _ x).2 hx, ?_⟩
      rw [hmem, set_word_apply, if_neg]
      · exact ⟨hpresent, hframe⟩
      · rintro ⟨rfl, hidx⟩
        obtain ⟨rfl, hpde⟩ := h.table_inj hs hlive hdir ht hl hq hx
        obtain rfl : n = m := by omega
        exact hne' rfl
    · obtain ⟨rfl, rfl⟩ : q = p ∧ m = n := by simpa using heq
      refine ⟨hlive, dir, hdir, t, (htables q dir hdir _ t).2 ht, ?_⟩
      rw [hmem, set_word_same]
      exact ⟨hpresent, hframe⟩

/-- An empty page table is installed. Its frame is free, or frame 0 where that is allowed. -/
theorem Frames.install_table (h : Frames strict g s) (hdir : g.dir p = some dir) (hi : i < 0x300)
    (habsent : present (s.mem dir i) = false)
    (ht : ¬strict ∧ t = 0 ∨ g.use t = none ∧ 0x200 ≤ t ∧ use t = some (.table p i))
    (hmem : last.mem = update (setWord s.mem dir i (entryFor (t * 4096))) t fun _ => 0)
    (hbacked : Backed use s last) (hkeep : ∀ f u, g.use f = some u → use f = some u)
    (hback : ∀ f u, use f = some u → g.use f = some u ∨ u = .table p i) :
    Frames strict { g with use := use } last := by
  have hkd : kernelDir = 0x100 := rfl
  have hdirlo := (h.dir_frame hdir).1
  have hplace : t = 0 ∨ 0x200 ≤ t ∧ g.use t = none := by
    rcases ht with ⟨-, rfl⟩ | ⟨hnone, hlo, -⟩
    · exact .inl rfl
    · exact .inr ⟨hlo, hnone⟩
  have hnotdir : ∀ q dir', g.dir q = some dir' → dir' ≠ t := by
    rintro q dir' hq rfl
    obtain ⟨n, -, huse⟩ := h.dir_use hq
    rcases hplace with rfl | ⟨-, hnone⟩
    · have := h.dir_frame hq
      omega
    · simp [hnone] at huse
  have hother : ∀ x, x ≠ t → x ≠ dir → last.mem x = s.mem x := by
    intro x hx hx'
    rw [hmem, update_of_ne hx, set_word_frame_ne _ _ _ hx']
  have hzero : last.mem t = fun _ => 0 := by rw [hmem, update_self]
  have hdirs : ∀ q dir', g.dir q = some dir' → ∀ k, ¬(dir' = dir ∧ k = i) →
      last.mem dir' k = s.mem dir' k := by
    intro q dir' hq k hk
    rw [hmem, update_of_ne (hnotdir q dir' hq), set_word_apply, if_neg hk]
  obtain ⟨hroot, hself, hlow, hisdirs, hmapped, hkernel⟩ := h.kernel_half use last.mem
    (fun k _ => congrFun (hother _ (by omega) (by omega)) k)
    (fun x hlo hhi => hother x (by omega) (by omega))
    (fun q dir' hq k hk => hdirs q dir' hq k (by omega)) (fun f m hf => hkeep f _ hf)
  -- a page table is the new one, or an old one that is not overwritten unless both are frame 0
  have htable : ∀ q dir', g.live q → g.dir q = some dir' → ∀ k x, TableAt last.mem dir' k x →
      (dir' = dir ∧ k = i ∧ x = t) ∨ TableAt s.mem dir' k x := by
    intro q dir' hl hq k x ⟨hk, hpresent, hframe⟩
    by_cases hnew : dir' = dir ∧ k = i
    · obtain ⟨rfl, rfl⟩ := hnew
      refine .inl ⟨rfl, rfl, ?_⟩
      rw [hmem, update_of_ne (hnotdir q dir' hq)] at hframe
      simpa using hframe.symm
    · rw [hdirs q dir' hq k hnew] at hpresent hframe
      exact .inr ⟨hk, hpresent, hframe⟩
  have hsame : ∀ q dir', g.live q → g.dir q = some dir' → ∀ k x, TableAt s.mem dir' k x →
      x ≠ t → last.mem x = s.mem x := by
    intro q dir' hl hq k x hx hxt
    exact hother x hxt (h.table_ne_dir hl hq hx hdir)
  refine ⟨hbacked.layout, hroot, hself, hlow, hisdirs, hbacked.cr3 ▸ h.active, hbacked.taken,
    h.owned_of hbacked.vaddr fun m _ f _ _ => hmapped m f, ?_, ?_, ?_, ?_, ?_⟩
  · exact fun hs m f hmap => hkeep f _ (h.kernelPages hs m f (hkernel m f hmap))
  · intro q dir' hl hq k x hx
    rcases htable q dir' hl hq k x hx with ⟨rfl, rfl, rfl⟩ | hx'
    · obtain rfl := h.dir_inj hdir hq
      rcases ht with hzero | ⟨-, -, huse⟩
      · exact .inl hzero
      · exact .inr huse
    · rcases h.tables q dir' hl hq k x hx' with hzero | huse
      · exact .inl hzero
      · exact .inr (hkeep x _ huse)
  · intro q dir' hl hq k x hx j
    by_cases hxt : x = t
    · subst hxt
      simp [hzero]
    rcases htable q dir' hl hq k x hx with ⟨-, -, hxt'⟩ | hx'
    · exact absurd hxt' hxt
    · rw [hsame q dir' hl hq k x hx' hxt, hbacked.user]
      exact h.entries q dir' hl hq k x hx' j
  · intro hs q dir' hl hq m f ⟨x, hx, hpresent, hframe⟩
    by_cases hxt : x = t
    · subst hxt
      simp [hzero, present] at hpresent
    rcases htable q dir' hl hq _ x hx with ⟨-, -, hxt'⟩ | hx'
    · exact absurd hxt' hxt
    · rw [hsame q dir' hl hq _ x hx' hxt] at hpresent hframe
      exact hkeep f _ (h.userPages hs q dir' hl hq m f ⟨x, hx', hpresent, hframe⟩)
  · intro hs f q m huse
    obtain ⟨hl, dir', hq, x, hx, hpresent, hframe⟩ :=
      h.mapped hs f q m (by simpa using hback f _ huse)
    have hnew : ¬(dir' = dir ∧ m / 1024 = i) := by
      rintro ⟨rfl, rfl⟩
      exact absurd hx.2.1 (by simp [habsent])
    have hxt : x ≠ t := by
      rintro rfl
      have huse' : g.use x = some (.table q (m / 1024)) := by
        simpa [hs] using h.tables q dir' hl hq _ x hx
      rcases ht with ⟨hns, -⟩ | ⟨hnone, -⟩
      · exact hns hs
      · simp [hnone] at huse'
    refine ⟨hl, dir', hq, x, ?_, ?_⟩
    · unfold TableAt at *
      rwa [hdirs q dir' hq _ hnew]
    · rw [hsame q dir' hl hq _ x hx hxt]
      exact ⟨hpresent, hframe⟩

/-- The uses that are left when process `p` gives up its user half. -/
def Ghost.useWithout (g : Ghost) (p f : Nat) : Option Use :=
  match g.use f with
  | some (.user q n) => if q = p then none else some (.user q n)
  | some (.table q i) => if q = p then none else some (.table q i)
  | other => other

theorem Ghost.use_without_eq_some : g.useWithout p f = some u ↔
      g.use f = some u ∧ (∀ n, u ≠ .user p n) ∧ ∀ i, u ≠ .table p i := by
  unfold useWithout
  cases h : g.use f with
  | none => simp
  | some v =>
    cases v with
    | page n => aesop
    | table q i =>
      by_cases hq : q = p
      · aesop
      · aesop
    | user q n =>
      by_cases hq : q = p
      · aesop
      · aesop

/-- The user half of `p` is no longer covered. -/
theorem Frames.drop_live (h : Frames strict g s) (p : Nat) :
    Frames strict { g with use := g.useWithout p, live := fun q => g.live q ∧ q ≠ p } s := by
  have hmapped : ∀ n f, Mapped g s.mem n f →
      Mapped { g with use := g.useWithout p, live := fun q => g.live q ∧ q ≠ p } s.mem n f :=
    fun n f hm => ⟨hm.1, Ghost.use_without_eq_some.2 ⟨hm.2, by simp, by simp⟩⟩
  refine { h with
    dirs := ?_
    taken := fun f u hf => h.taken f u (Ghost.use_without_eq_some.1 hf).1
    owned := h.owned_of rfl fun n _ f _ _ => hmapped n f
    kernelPages := fun hs n f hmap =>
      Ghost.use_without_eq_some.2 ⟨h.kernelPages hs n f hmap, by simp, by simp⟩
    tables := ?_
    entries := fun q dir hl => h.entries q dir hl.1
    userPages := ?_
    mapped := ?_ }
  · intro q dir hq
    obtain ⟨hisdir, howner, hmap⟩ := h.dirs q dir hq
    exact ⟨hisdir, howner, hmapped _ dir hmap⟩
  · intro q dir ⟨hl, hqp⟩ hq i t ht
    rcases h.tables q dir hl hq i t ht with hzero | huse
    · exact .inl hzero
    · exact .inr (Ghost.use_without_eq_some.2 ⟨huse, by simp, by simp [hqp]⟩)
  · intro hs q dir ⟨hl, hqp⟩ hq n f hmap
    exact Ghost.use_without_eq_some.2
      ⟨h.userPages hs q dir hl hq n f hmap, by simp [hqp], by simp⟩
  · intro hs f q n huse
    obtain ⟨hold, hne, -⟩ := Ghost.use_without_eq_some.1 huse
    obtain ⟨hl, hexists⟩ := h.mapped hs f q n hold
    exact ⟨⟨hl, fun hqp => hne n (by rw [hqp])⟩, hexists⟩

/-- A new page directory with an empty user half. -/
theorem Frames.add_dir (h : Frames strict g s) {live : Nat → Prop} (hnone : g.dir p = none)
    (hisdir : IsDir s.mem dir) (hmap : Mapped g s.mem n dir) (howner : g.owner n = some (.dir p))
    (hempty : ∀ i < 0x300, present (s.mem dir i) = false)
    (hlive : ∀ q, q ≠ p → (live q ↔ g.live q)) : Frames strict { g with
      dir := update g.dir p (some dir)
      dirPage := update g.dirPage p n
      live := live } s := by
  have hcases : ∀ {q d}, update g.dir p (some dir) q = some d →
      (q = p ∧ d = dir) ∨ (q ≠ p ∧ g.dir q = some d) := by
    intro q d hq
    by_cases hqp : q = p
    · subst hqp
      exact .inl ⟨rfl, by simpa using hq.symm⟩
    · exact .inr ⟨hqp, by simpa [update_of_ne hqp] using hq⟩
  have hkeep : ∀ {q d}, g.dir q = some d → q ≠ p ∧ update g.dir p (some dir) q = some d := by
    intro q d hq
    have hqp : q ≠ p := by
      rintro rfl
      simp [hnone] at hq
    exact ⟨hqp, (update_of_ne hqp _ _).trans hq⟩
  -- the new directory has no page tables yet
  have hold : ∀ {q d i t}, live q → update g.dir p (some dir) q = some d → TableAt s.mem d i t →
      g.live q ∧ g.dir q = some d := by
    intro q d i t hl hq ht
    rcases hcases hq with ⟨rfl, rfl⟩ | ⟨hqp, hq'⟩
    · exact absurd ht.2.1 (by simp [hempty i ht.1])
    · exact ⟨(hlive q hqp).1 hl, hq'⟩
  refine ⟨h.layout, h.root, h.rootSelf, h.low, ?_, ?_, h.taken, h.owned, h.kernelPages, ?_, ?_, ?_,
    ?_⟩
  · intro q d hq
    rcases hcases hq with ⟨rfl, rfl⟩ | ⟨hqp, hq'⟩
    · simp only [update_self]
      exact ⟨hisdir, howner, hmap⟩
    · simp only [update_of_ne hqp]
      exact h.dirs q d hq'
  · rcases h.active with hcr3 | ⟨q, hq⟩
    · exact .inl hcr3
    · exact .inr ⟨q, (hkeep hq).2⟩
  · intro q d hl hq i t ht
    obtain ⟨hl', hq'⟩ := hold hl hq ht
    exact h.tables q d hl' hq' i t ht
  · intro q d hl hq i t ht
    obtain ⟨hl', hq'⟩ := hold hl hq ht
    exact h.entries q d hl' hq' i t ht
  · intro hs q d hl hq m f ⟨t, ht, hpage⟩
    obtain ⟨hl', hq'⟩ := hold hl hq ht
    exact h.userPages hs q d hl' hq' m f ⟨t, ht, hpage⟩
  · intro hs f q m huse
    obtain ⟨hl, d, hq, hmap'⟩ := h.mapped hs f q m huse
    obtain ⟨hqp, hq'⟩ := hkeep hq
    exact ⟨(hlive q hqp).2 hl, d, hq', hmap'⟩

/-- A process that is no longer live gives up its page directory. -/
theorem Frames.drop_dir (h : Frames strict g s) (hlive : ¬g.live p)
    (hactive : g.dir p ≠ some s.cr3) : Frames strict { g with dir := update g.dir p none } s := by
  have hcases : ∀ {q d}, update g.dir p none q = some d → g.dir q = some d := by
    intro q d hq
    by_cases hqp : q = p
    · subst hqp
      simp at hq
    · simpa [update_of_ne hqp] using hq
  refine ⟨h.layout, h.root, h.rootSelf, h.low, fun q d hq => h.dirs q d (hcases hq), ?_, h.taken,
    h.owned, h.kernelPages, fun q d hl hq => h.tables q d hl (hcases hq),
    fun q d hl hq => h.entries q d hl (hcases hq),
    fun hs q d hl hq => h.userPages hs q d hl (hcases hq), ?_⟩
  · rcases h.active with hcr3 | ⟨q, hq⟩
    · exact .inl hcr3
    · have hqp : q ≠ p := by
        rintro rfl
        exact hactive hq
      exact .inr ⟨q, (update_of_ne hqp _ _).trans hq⟩
  · intro hs f q n huse
    obtain ⟨hl, d, hq, hmap⟩ := h.mapped hs f q n huse
    have hqp : q ≠ p := by
      rintro rfl
      exact hlive hl
    exact ⟨hl, d, (update_of_ne hqp _ _).trans hq, hmap⟩

end LosKernel.Mm
