import LosKernel.Mm.Conserve
import LosKernel.Mm.Frames

/-!
# Allocating and freeing pages under the invariant

What `palloc`, `page_table_add`, `malloc_page`, `mfree_page` and their relatives do to a state
that satisfies `Frames`: they return in a state that satisfies it for a ghost that extends the old
one. Where `strict` is to be kept, user pages need frames for their page tables.
-/

namespace LosKernel.Mm

open Prog hiding update
open Function (update update_of_ne update_self)

variable {n f v t p cnt b dir x m : Nat} {g g' g'' : Ghost} {t' : PoolType}
  {mem : Nat → Nat → Nat} {ok : Stop → Prop} {strict : Prop} {s last : Vm}
  {use : Nat → Option Use} {u : Use}

/-! ## Bits of the pools -/

@[simp] theorem pool_set_pool_map_same (s : Vm) (t : PoolType) (m : BitMap) :
    (s.setPoolMap t m).pool t = { s.pool t with poolMap := m } := by
  cases t <;> rfl

theorem pool_set_pool_map_ne (s : Vm) {t : PoolType} (m : BitMap) (h : t' ≠ t) :
    (s.setPoolMap t m).pool t' = s.pool t' := by
  cases t <;> cases t' <;> first | rfl | exact absurd rfl h

theorem Layout.set_pool_bit (h : Layout s) (t : PoolType) (b : Nat) (value : Bool) :
    Layout (s.setPoolMap t (bitmapSet (s.pool t).poolMap b value)) := by
  cases t <;> exact ⟨h.1, h.2, h.3, h.4, h.5, h.6⟩

theorem user_start_set_pool_map (s : Vm) (t : PoolType) (m : BitMap) :
    (s.setPoolMap t m).userPool.phyAddrStart = s.userPool.phyAddrStart := by
  cases t <;> rfl

theorem mem_set_pool_map (s : Vm) (t : PoolType) (m : BitMap) : (s.setPoolMap t m).mem = s.mem := by
  cases t <;> rfl

theorem cr3_set_pool_map (s : Vm) (t : PoolType) (m : BitMap) : (s.setPoolMap t m).cr3 = s.cr3 := by
  cases t <;> rfl

theorem kernel_vaddr_set_pool_map (s : Vm) (t : PoolType) (m : BitMap) :
    (s.setPoolMap t m).kernelVaddr = s.kernelVaddr := by
  cases t <;> rfl

theorem taken_set_bit {t : PoolType} (h : (s.pool t').Taken f) :
    ((s.setPoolMap t (bitmapSet (s.pool t).poolMap b true)).pool t').Taken f := by
  by_cases ht : t' = t
  · subst ht
    obtain ⟨b', hb', haddr, hbit⟩ := h
    refine ⟨b', by simpa using hb', by simpa using haddr, ?_⟩
    simp only [pool_set_pool_map_same, scan_test_bitmap_set]
    split
    · rfl
    · exact hbit
  · rwa [pool_set_pool_map_ne _ _ ht]

/-- Clearing the bit of one frame takes no other frame away. -/
theorem taken_clear_bit {t : PoolType} (h : (s.pool t').Taken f)
    (hne : t' = t → f * 4096 ≠ (s.pool t).phyAddrStart + b * 4096) :
    ((s.setPoolMap t (bitmapSet (s.pool t).poolMap b false)).pool t').Taken f := by
  by_cases ht : t' = t
  · subst ht
    obtain ⟨b', hb', haddr, hbit⟩ := h
    refine ⟨b', by simpa using hb', by simpa using haddr, ?_⟩
    simp only [pool_set_pool_map_same, scan_test_bitmap_set]
    rw [if_neg]
    · exact hbit
    · rintro rfl
      exact hne rfl haddr
  · rwa [pool_set_pool_map_ne _ _ ht]

/-- The memory and a bit of a pool change. -/
theorem Layout.backed_bit (h : Layout s) (t : PoolType) (b : Nat) (value : Bool)
    (mem : Nat → Nat → Nat)
    (htaken : ∀ f u, use f = some u →
      ((s.setPoolMap t (bitmapSet (s.pool t).poolMap b value)).pool u.pool).Taken f) :
    Backed use s { s.setPoolMap t (bitmapSet (s.pool t).poolMap b value) with mem := mem } :=
  ⟨cr3_set_pool_map _ _ _, kernel_vaddr_set_pool_map _ _ _, (h.set_pool_bit t b value).of_mem mem,
    user_start_set_pool_map _ _ _, htaken⟩

theorem Layout.pool_start (h : Layout s) (t : PoolType) : (s.pool t).phyAddrStart % 4096 = 0 := by
  cases t
  · exact by simp [Vm.pool, h.kernelStart]
  · exact h.userStart

/-! ## Free frames -/

/-- The number of free frames of a pool. -/
def Pool.free (pool : Pool) : Nat :=
  ((Finset.range (8 * pool.poolMap.btmpBytesLen)).filter
    fun b => bitmapScanTest pool.poolMap b = false).card

/-- A frame can be allocated exactly when there is a free one. -/
theorem Pool.free_eq_zero_iff (pool : Pool) : pool.free = 0 ↔ bitmapScan pool.poolMap 1 = none :=
  pool.poolMap.free_eq_zero_iff

theorem Pool.free_set_bit (pool : Pool) (h : bitmapScan pool.poolMap 1 = some b) :
    Pool.free { pool with poolMap := bitmapSet pool.poolMap b true } + 1 = pool.free :=
  pool.poolMap.free_bitmap_set h

/-! ## Allocating a frame -/

/-- Frame `f` was free and is now taken from the pool `t`; nothing else changed. -/
structure Got (g : Ghost) (t : PoolType) (s : Vm) (f : Nat) (last : Vm) : Prop where
  quiet : Quiet s last
  mem : last.mem = s.mem
  cr3 : last.cr3 = s.cr3
  unused : g.use f = none
  taken : (last.pool t).Taken f
  free : (last.pool t).free + 1 = (s.pool t).free
  pool : last = s.setPoolMap t (last.pool t).poolMap

/-- `palloc` gives a frame without a use, or finds none. -/
theorem Frames.palloc_spec (h : Frames strict g s) (t : PoolType) : wp ok (palloc t) s fun r mid =>
      (r = none → mid = s ∧ bitmapScan (s.pool t).poolMap 1 = none) ∧
      ∀ addr, r = some addr → ∃ f, addr = f * 4096 ∧ Frames strict g mid ∧ Got g t s f mid := by
  rw [wp_palloc]
  refine ⟨fun b hscan => ⟨by simp, ?_⟩, fun hscan => ⟨fun _ => ⟨rfl, hscan⟩, by simp⟩⟩
  rintro _ ⟨⟩
  obtain ⟨hlt, hclear, -⟩ := bitmap_scan_one_eq_some _ hscan
  have hstart := h.layout.pool_start t
  refine ⟨b + (s.pool t).phyAddrStart / 4096, by omega, ?_, ?_⟩
  · exact h.of_pools (mem_set_pool_map _ _ _)
      (h.layout.backed_bit t b true _ fun f u hf => taken_set_bit (h.taken f u hf))
  · refine ⟨quiet_set_pool_map s t _, mem_set_pool_map _ _ _, cr3_set_pool_map _ _ _, ?_, ?_, ?_,
      ?_⟩
    · -- a frame in use has its bit set
      by_contra huse
      obtain ⟨u, hu⟩ := Option.ne_none_iff_exists'.1 huse
      obtain ⟨b', hb', haddr, hbit⟩ := h.taken _ u hu
      by_cases ht : u.pool = t
      · rw [ht] at haddr hbit
        obtain rfl : b' = b := by omega
        simp [hclear] at hbit
      · have hapart := h.layout.poolsApart
        have hkernel := h.layout.kernelStart
        cases t <;> cases hpool : u.pool <;> simp_all [Vm.pool] <;> omega
    · refine ⟨b, by simpa using hlt, by simp; omega, ?_⟩
      simp [scan_test_bitmap_set]
    · rw [pool_set_pool_map_same]
      exact Pool.free_set_bit _ hscan
    · rw [pool_set_pool_map_same]

/-! ## Growing ghosts -/

/-- Ghost `g'` differs from `g` in that it records more uses. -/
structure Extends (g g' : Ghost) : Prop where
  dir : g'.dir = g.dir
  dirPage : g'.dirPage = g.dirPage
  live : g'.live = g.live
  owner : g'.owner = g.owner
  use : ∀ f u, g.use f = some u → g'.use f = some u

theorem Extends.refl (g : Ghost) : Extends g g := ⟨rfl, rfl, rfl, rfl, fun _ _ => id⟩

theorem Extends.trans (h : Extends g g') (h' : Extends g' g'') : Extends g g'' :=
  ⟨h'.dir.trans h.dir, h'.dirPage.trans h.dirPage, h'.live.trans h.live, h'.owner.trans h.owner,
    fun f u hu => h'.use f u (h.use f u hu)⟩

theorem extends_update_use (h : g.use f = none) :
    Extends g { g with use := update g.use f (some u) } := by
  refine ⟨rfl, rfl, rfl, rfl, fun x v hv => ?_⟩
  have hx : x ≠ f := by
    rintro rfl
    simp [h] at hv
  simpa [update_of_ne hx] using hv

theorem update_use_eq_some {v : Use} (h : update use f (some u) x = some v) :
    x = f ∧ v = u ∨ use x = some v := by
  by_cases hx : x = f
  · subst hx
    exact .inl ⟨rfl, by simpa using h.symm⟩
  · exact .inr (by simpa [update_of_ne hx] using h)

/-- The memory changes, and a frame that is taken gets a use. -/
theorem Frames.backed_update (h : Frames strict g s) (htaken : (s.pool u.pool).Taken f)
    (mem : Nat → Nat → Nat) : Backed (update g.use f (some u)) s { s with mem := mem } := by
  refine ⟨rfl, rfl, h.layout.of_mem mem, rfl, fun x v hx => ?_⟩
  rcases update_use_eq_some hx with ⟨rfl, rfl⟩ | hx
  · exact htaken
  · exact h.taken x v hx

/-- A step on kernel pages: only words and frames of the kernel change. -/
structure KernelSide (s last : Vm) : Prop where
  quiet : Quiet s last
  cr3 : last.cr3 = s.cr3
  userPool : last.userPool = s.userPool

theorem KernelSide.refl (s : Vm) : KernelSide s s := ⟨Std.Refl.refl s, rfl, rfl⟩

theorem KernelSide.trans {mid : Vm} (h : KernelSide s mid) (h' : KernelSide mid last) :
    KernelSide s last :=
  ⟨IsTrans.trans _ _ _ h.quiet h'.quiet, h'.cr3.trans h.cr3, h'.userPool.trans h.userPool⟩

theorem Got.kernel_side (h : Got g .kernel s f last) : KernelSide s last :=
  ⟨h.quiet, h.cr3, by rw [h.pool]; rfl⟩

/-! ## Entries of page tables -/

theorem pde_idx_of_page (hv : v / 4096 = n) (hn : n < 2 ^ 20) : pdeIdx v = n / 1024 := by
  unfold pdeIdx
  omega

theorem pte_idx_of_page (hv : v / 4096 = n) : pteIdx v = n % 1024 := by
  unfold pteIdx
  omega

theorem page_indices (hn : n < 2 ^ 20) :
    pdeIdx (n * 4096) = n / 1024 ∧ pteIdx (n * 4096) = n % 1024 :=
  ⟨pde_idx_of_page (by omega) hn, pte_idx_of_page (by omega)⟩

/-- The active directory finds the page table of a kernel page. -/
theorem Frames.active_kernel_entry (h : Frames strict g s) (hv : v / 4096 = n) (hn : HeapPage n) :
    s.mem s.cr3 (pdeIdx v) = entryFor (kernelTable n * 4096) := by
  rw [pde_idx_of_page hv (by have := hn.2; omega)]
  exact h.kernel_entry h.is_dir_active (by have := hn.1; omega) hn.2

/-- A frame is mapped at a reserved page of the kernel heap. -/
theorem Frames.page_table_add_kernel (h : Frames strict g s) (hv : v / 4096 = n) (hn : HeapPage n)
    (howner : ∀ o, g.owner n = some o → o = .reserved) (hf : g.use f = none)
    (htaken : s.kernelPool.Taken f) :
    wp any (pageTableAdd v (f * 4096)) s fun _ last =>
      KernelSide s last ∧ last.kernelPool = s.kernelPool ∧
      ∃ g', Extends g g' ∧ Frames strict g' last ∧ Mapped g' last.mem n f ∧
        ∀ m x, m ≠ n → Mapped g s.mem m x → Mapped g' last.mem m x := by
  have hself := h.is_dir_active.self_mapped
  have hpde := h.active_kernel_entry hv hn
  have hpte := pte_idx_of_page hv
  simp only [pageTableAdd, wp_bind, wp_load_pde hself, wp_load_pte hself, wp_store_pte hself,
    hpde, present_entry_for, if_true, wp_assert, and_any, forall_const, frame_of_entry_for,
    Nat.mul_div_cancel _ (show 0 < 4096 by decide), hpte]
  intro _
  have hkeep : ∀ x u, g.use x = some u → u ≠ .page n →
      update g.use f (some (.page n)) x = some u :=
    fun x u hx _ => (extends_update_use hf).use x u hx
  refine ⟨⟨⟨⟨rfl, rfl, rfl, rfl, rfl, rfl⟩, rfl, rfl⟩, rfl, rfl⟩, trivial, _, extends_update_use hf,
    ?_, ?_, fun m x hm hmap => hmap.set_kernel_entry hn hm hkeep⟩
  · refine h.set_kernel_entry (w := entryFor (f * 4096)) hn howner (by rfl)
      (h.backed_update (u := .page n) htaken _) hkeep ?_ (by simp)
    intro x u hx
    rcases update_use_eq_some hx with ⟨-, rfl⟩ | hx
    · exact .inr rfl
    · exact .inl hx
  · exact ⟨⟨hn, by simp, by simp⟩, by simp⟩

/-- How mapping a user page changes the page tables of its directory: the page table for it is
there, and at most one frame of the kernel was taken for it. -/
structure TableAdded (dir i : Nat) (s last : Vm) : Prop where
  present : ∀ k, Mm.present (s.mem dir k) = true ∨ k = i → Mm.present (last.mem dir k) = true
  free : s.kernelPool.free ≤
    last.kernelPool.free + if Mm.present (s.mem dir i) = true then 0 else 1
  userFree : last.userPool.free = s.userPool.free

theorem not_user_map (ht : TableAt mem dir (n / 1024) t)
    (habsent : present (mem t (n % 1024)) = false) : ¬UserMap mem dir n f := by
  intro ⟨t', ht', hpresent, _⟩
  obtain rfl : t = t' := ht.2.2.symm.trans ht'.2.2
  simp [habsent] at hpresent

/-- A page that the directory of a process does not map is recorded for no frame. -/
theorem Frames.unmapped_unused (h : Frames strict g s) (hdir : g.dir p = some dir)
    (hmap : ∀ f, ¬UserMap s.mem dir n f) (hs : strict) (x : Nat) : g.use x ≠ some (.user p n) := by
  intro hx
  obtain ⟨-, dir', hdir', hmap'⟩ := h.mapped hs x p n hx
  obtain rfl : dir = dir' := by simpa [hdir] using hdir'
  exact hmap x hmap'

/-- A page of the running process gets a frame where its page table exists. -/
theorem Frames.set_user_page (h : Frames strict g s) (hlive : g.live p) (hdir : g.dir p = some dir)
    (ht : TableAt s.mem dir (n / 1024) t) (habsent : present (s.mem t (n % 1024)) = false)
    (hf : g.use f = none) (htaken : s.userPool.Taken f) :
    Frames strict { g with use := update g.use f (some (.user p n)) }
      { s with mem := setWord s.mem t (n % 1024) (entryFor (f * 4096)) } := by
  have hstart : s.userPool.phyAddrStart ≤ f * 4096 := by
    obtain ⟨b, -, haddr, -⟩ := htaken
    omega
  refine h.set_user_entry (w := entryFor (f * 4096)) hlive hdir ht (by rfl)
    (h.backed_update (u := .user p n) htaken _) ?_ ?_ ?_ ?_
  · exact fun x u hx _ _ => (extends_update_use hf).use x u hx
  · intro hs x u hx
    rcases update_use_eq_some hx with ⟨rfl, rfl⟩ | hx'
    · exact .inr ⟨rfl, by simp, by simp⟩
    · refine .inl ⟨hx', ?_⟩
      rintro rfl
      refine h.unmapped_unused hdir ?_ hs x hx'
      exact fun _ => not_user_map ht habsent
  · right
    simpa using hstart
  · simp

/-- The state after a new page table at frame `t` was entered in the directory and cleared. -/
def withTable (s : Vm) (i t : Nat) : Vm :=
  { s with mem := update (setWord s.mem s.cr3 i (entryFor (t * 4096))) t fun _ => 0 }

/-- The steps of `page_table_add` that install the page table `t` and the first entry in it. -/
theorem wp_fill_table (hself : SelfMapped s.mem s.cr3) {w : Nat} (hv : pdeIdx v < 1023)
    (ht : t ≠ s.cr3) {Q : Unit → Vm → Prop} (h : Q () { withTable s (pdeIdx v) t with
      mem := setWord (withTable s (pdeIdx v) t).mem t (pteIdx v) w }) :
    wp ok (do
      store (pdePtr v) (entryFor (t * 4096))
      zeroPage (ptePtr v / 4096 * 4096)
      let pte ← load (ptePtr v)
      assert (!present pte)
      store (ptePtr v) w) s Q := by
  have hself1 : SelfMapped (setWord s.mem s.cr3 (pdeIdx v) (entryFor (t * 4096))) s.cr3 := by
    unfold SelfMapped
    rw [set_word_apply, if_neg (by omega)]
    exact hself
  have hself2 : SelfMapped (withTable s (pdeIdx v) t).mem (withTable s (pdeIdx v) t).cr3 := by
    simp only [SelfMapped, withTable, update_of_ne ht.symm]
    exact hself1
  have hpde : (withTable s (pdeIdx v) t).mem (withTable s (pdeIdx v) t).cr3 (pdeIdx v) =
      entryFor (t * 4096) := by
    simp [withTable, update_of_ne ht.symm]
  simp only [wp_bind, wp_store_pde hself, wp_zero_page, walk_page_pte_ptr hself1,
    set_word_same, present_entry_for, if_true, frame_of_entry_for, of_some,
    Nat.mul_div_cancel _ (show 0 < 4096 by decide)]
  have hzero : present ((withTable s (pdeIdx v) t).mem t (pteIdx v)) = false := by
    simp [withTable, present]
  show wp ok (load (ptePtr v)) (withTable s (pdeIdx v) t) _
  simpa [wp_load_pte hself2, wp_store_pte hself2, hpde, hzero] using h

/-- A frame of the pool of the kernel, or frame 0 where that is allowed, becomes a page table of the
running process. -/
theorem Frames.with_table (h : Frames strict g s) {i : Nat} (hdir : g.dir p = some s.cr3)
    (hi : i < 0x300) (habsent : present (s.mem s.cr3 i) = false)
    (ht : ¬strict ∧ t = 0 ∨ g.use t = none ∧ s.kernelPool.Taken t) :
    ∃ g', Extends g g' ∧ Frames strict g' (withTable s i t) ∧ ∀ x, x ≠ t → g'.use x = g.use x := by
  rcases ht with hzero | ⟨hunused, htaken⟩
  · exact ⟨g, .refl g, h.install_table hdir hi habsent (.inl hzero) rfl (h.backed _)
      (fun _ _ => id) (fun _ _ => .inl), fun _ _ => rfl⟩
  · have hlow : 0x200 ≤ t := by
      obtain ⟨b, -, haddr, -⟩ := htaken
      have hstart := h.layout.kernelStart
      omega
    refine ⟨_, extends_update_use (u := .table p i) hunused, h.install_table hdir hi habsent
      (.inr ⟨hunused, hlow, by simp⟩) rfl
      (h.backed_update (u := .table p i) htaken _)
      (extends_update_use hunused).use ?_, fun x hx => update_of_ne hx _ _⟩
    intro x u hx
    rcases update_use_eq_some hx with ⟨-, rfl⟩ | hx'
    · exact .inr rfl
    · exact .inl hx'

/-- The end of `page_table_add` when a page table was missing. -/
theorem Frames.fill_table_user (h : Frames strict g s) (hlive : g.live p)
    (hdir : g.dir p = some s.cr3) (hv : v / 4096 = n) (hn : n < 0xc0000) (hf : g.use f = none)
    (htaken : s.userPool.Taken f) (habsent : present (s.mem s.cr3 (n / 1024)) = false)
    (ht : ¬strict ∧ t = 0 ∨ g.use t = none ∧ s.kernelPool.Taken t) :
    wp any (do
      store (pdePtr v) (entryFor (t * 4096))
      zeroPage (ptePtr v / 4096 * 4096)
      let pte ← load (ptePtr v)
      assert (!present pte)
      store (ptePtr v) (entryFor (f * 4096))) s fun _ last =>
        last.cr3 = s.cr3 ∧ last.kernelPool = s.kernelPool ∧ last.userPool = s.userPool ∧
        (∀ k, present (s.mem s.cr3 k) = true ∨ k = n / 1024 → present (last.mem s.cr3 k) = true) ∧
        ∃ g', Extends g g' ∧ Frames strict g' last ∧ g'.use f = some (.user p n) := by
  have hpde := pde_idx_of_page hv (by omega)
  have hpte := pte_idx_of_page hv
  have hti : t ≠ s.cr3 := by
    rintro rfl
    obtain ⟨m, -, huse⟩ := h.dir_use hdir
    have hframe := h.dir_frame hdir
    rcases ht with ⟨-, hzero⟩ | ⟨hnone, -⟩
    · omega
    · simp [hnone] at huse
  -- the frame of the new page is not that of the page table
  have hft : f ≠ t := by
    rintro rfl
    obtain ⟨b, -, haddr, -⟩ := htaken
    have hapart := h.layout.poolsApart
    have hstart := h.layout.kernelStart
    rcases ht with ⟨-, hzero⟩ | ⟨-, b', hb', haddr', -⟩
    · omega
    · omega
  obtain ⟨g1, hext1, hframes1, hsame⟩ := h.with_table hdir (by omega) habsent ht
  have htable : TableAt (withTable s (n / 1024) t).mem s.cr3 (n / 1024) t := by
    refine ⟨by omega, ?_, ?_⟩ <;> simp [withTable, update_of_ne hti.symm]
  have hzero : present ((withTable s (n / 1024) t).mem t (n % 1024)) = false := by
    simp [withTable, present]
  have hframes2 := hframes1.set_user_page (hext1.live ▸ hlive) (hext1.dir ▸ hdir) htable hzero
    ((hsame f hft).trans hf) htaken
  refine wp_fill_table h.is_dir_active.self_mapped (by rw [hpde]; omega) hti ?_
  rw [hpde, hpte]
  refine ⟨rfl, rfl, rfl, ?_, _, hext1.trans (extends_update_use ((hsame f hft).trans hf)), hframes2,
    by simp⟩
  intro k hk
  simp only [withTable, set_word_apply, hti.symm, false_and, if_false, true_and,
    update_of_ne hti.symm]
  split
  · simp
  · exact hk.resolve_right (by assumption)

/-- A page of the running process gets a frame. When a page table is missing, one is installed; to
keep `strict`, there must be a frame for it. -/
theorem Frames.page_table_add_user (h : Frames strict g s) (hlive : g.live p)
    (hdir : g.dir p = some s.cr3) (hv : v / 4096 = n) (hn : n < 0xc0000) (hf : g.use f = none)
    (htaken : s.userPool.Taken f)
    (hroom : strict → present (s.mem s.cr3 (n / 1024)) = true ∨ 0 < s.kernelPool.free) :
    wp any (pageTableAdd v (f * 4096)) s fun _ last =>
      Quiet s last ∧ last.cr3 = s.cr3 ∧ TableAdded s.cr3 (n / 1024) s last ∧
      (strict → ∀ x, g.use x ≠ some (.user p n)) ∧
      ∃ g', Extends g g' ∧ Frames strict g' last ∧ g'.use f = some (.user p n) := by
  have hself := h.is_dir_active.self_mapped
  have hpde := pde_idx_of_page hv (by omega)
  have hpte := pte_idx_of_page hv
  refine wp_and (keeps_page_table_add v (f * 4096) s) ?_
  rw [pageTableAdd, wp_bind, wp_load_pde hself, wp_ite, hpde]
  constructor
  · intro hpresent
    simp only [wp_bind, wp_load_pte hself, wp_store_pte hself, hpde, hpte, hpresent,
      forall_const, wp_assert, and_any, Bool.not_eq_true']
    intro habsent
    have ht : TableAt s.mem s.cr3 (n / 1024) (frameOf (s.mem s.cr3 (n / 1024))) :=
      ⟨by omega, hpresent, rfl⟩
    refine ⟨trivial, ⟨?_, by simp [hpresent], rfl⟩,
      h.unmapped_unused hdir fun _ => not_user_map ht habsent, _, extends_update_use hf,
      h.set_user_page hlive hdir ht habsent hf htaken, by simp⟩
    intro k hk
    simp only [set_word_frame_ne _ _ _ (h.table_ne_dir hlive hdir ht hdir).symm]
    rcases hk with hk | rfl
    · exact hk
    · exact hpresent
  · intro hmissing
    rw [wp_bind]
    have habsent : present (s.mem s.cr3 (n / 1024)) = false := by simpa using hmissing
    have hfresh : strict → ∀ x, g.use x ≠ some (.user p n) := by
      refine h.unmapped_unused hdir ?_
      rintro _ ⟨t, ht, _⟩
      exact hmissing ht.2.1
    refine wp_mono (h.palloc_spec .kernel) ?_
    rintro r mid ⟨hnone, hsome⟩
    cases r with
    | none =>
      obtain ⟨rfl, hempty⟩ := hnone rfl
      have hns : ¬strict := by
        intro hs
        have hfree := (Pool.free_eq_zero_iff mid.kernelPool).2 hempty
        rcases hroom hs with hpresent | hpos
        · simp [habsent] at hpresent
        · omega
      refine wp_mono (h.fill_table_user (t := 0) hlive hdir hv hn hf htaken habsent
        (.inl ⟨hns, rfl⟩)) ?_
      rintro _ last ⟨hcr3, hkernel, huser, hkept, hg⟩
      exact ⟨hcr3, ⟨hkept, by simp [hkernel], by rw [huser]⟩, hfresh, hg⟩
    | some addr =>
      obtain ⟨t, rfl, hframes, hgot⟩ := hsome addr rfl
      have huserPool : mid.userPool = s.userPool := by rw [hgot.pool]; rfl
      refine wp_mono (hframes.fill_table_user hlive (by rwa [hgot.cr3]) hv hn hf
        (by rwa [huserPool]) (by rwa [hgot.mem, hgot.cr3]) (.inr ⟨hgot.unused, hgot.taken⟩)) ?_
      rintro _ last ⟨hcr3, hkernel, huser, hkept, hg⟩
      rw [hgot.cr3, hgot.mem] at hkept
      refine ⟨hcr3.trans hgot.cr3, ⟨hkept, ?_, by rw [huser, huserPool]⟩, hfresh, hg⟩
      have hfree : mid.kernelPool.free + 1 = s.kernelPool.free := hgot.free
      rw [hkernel, if_neg hmissing]
      omega

/-! ## Kernel pages -/

/-- Pages that are reserved are mapped, until the frames run out. -/
theorem map_pages_kernel : ∀ (cnt n : Nat) (g : Ghost) (s : Vm), Frames strict g s →
    (∀ i < cnt, HeapPage (n + i) ∧ ∀ o, g.owner (n + i) = some o → o = .reserved) →
    wp any (mapPages .kernel cnt (n * 4096)) s fun r last =>
      KernelSide s last ∧ ∃ g', Extends g g' ∧ Frames strict g' last ∧
        (∀ m f, (∀ i < cnt, m ≠ n + i) → Mapped g s.mem m f → Mapped g' last.mem m f) ∧
        (r = true → last.kernelPool.free + cnt = s.kernelPool.free ∧
          ∀ i < cnt, ∃ f, Mapped g' last.mem (n + i) f) := by
  intro cnt
  induction cnt with
  | zero =>
    intro n g s h _
    exact ⟨.refl s, g, .refl g, h, fun _ _ _ => id, fun _ => ⟨rfl, by simp⟩⟩
  | succ cnt ih =>
    intro n g s h hpages
    obtain ⟨hheap, howner⟩ := hpages 0 (by omega)
    refine wp_seq (h.palloc_spec .kernel) ?_
    intro r s1 ⟨hnone, hsome⟩
    cases r with
    | none =>
      obtain ⟨rfl, -⟩ := hnone rfl
      exact ⟨.refl s1, g, .refl g, h, fun _ _ _ => id, by simp⟩
    | some addr =>
      obtain ⟨f, rfl, h1, hgot⟩ := hsome addr rfl
      refine wp_seq (h1.page_table_add_kernel (by omega) hheap howner hgot.unused
        hgot.taken) ?_
      intro _ s2 ⟨hside2, hpool2, g2, hext2, h2, hmap2, hkeep2⟩
      have hside := hgot.kernel_side.trans hside2
      rw [← Nat.add_one_mul]
      refine wp_mono (ih (n + 1) g2 s2 h2 ?_) ?_
      · intro i hi
        rw [hext2.owner, show n + 1 + i = n + (i + 1) by omega]
        exact hpages (i + 1) (by omega)
      · intro r last ⟨hside3, g', hext3, h3, hkeep3, hdone⟩
        refine ⟨hside.trans hside3, g', hext2.trans hext3, h3, ?_, ?_⟩
        · intro m x hm hmap
          refine hkeep3 m x (fun i hi => ?_) (hkeep2 m x (hm 0 (by omega)) ?_)
          · have := hm (i + 1) (by omega)
            omega
          · rwa [hgot.mem]
        · intro hr
          obtain ⟨hfree, hall⟩ := hdone hr
          have hfree1 : s1.kernelPool.free + 1 = s.kernelPool.free := hgot.free
          refine ⟨by rw [hpool2] at hfree; omega, fun i hi => ?_⟩
          cases i with
          | zero => exact ⟨f, hkeep3 n f (fun i _ => by omega) hmap2⟩
          | succ i =>
            rw [show n + (i + 1) = n + 1 + i by omega]
            exact hall i (by omega)

/-- The ghost in which `cnt` pages from `n` on have another holder. -/
def Ghost.setOwner (g : Ghost) (n cnt : Nat) (o : Option Owner) : Ghost :=
  { g with owner := fun m => if n ≤ m ∧ m < n + cnt then o else g.owner m }

theorem Ghost.set_owner_in (g : Ghost) (o : Option Owner) (h : n ≤ m) (h' : m < n + cnt) :
    (g.setOwner n cnt o).owner m = o := if_pos ⟨h, h'⟩

theorem Ghost.set_owner_out (g : Ghost) (o : Option Owner) (h : ¬(n ≤ m ∧ m < n + cnt)) :
    (g.setOwner n cnt o).owner m = g.owner m := if_neg h

/-- Ghost `g'` records everything that `g` does. -/
structure Grows (g g' : Ghost) : Prop where
  dir : g'.dir = g.dir
  dirPage : g'.dirPage = g.dirPage
  live : g'.live = g.live
  owner : ∀ n o, g.owner n = some o → g'.owner n = some o
  use : ∀ f u, g.use f = some u → g'.use f = some u

theorem Extends.grows (h : Extends g g') : Grows g g' :=
  ⟨h.dir, h.dirPage, h.live, fun _ _ ho => by rwa [h.owner], h.use⟩

theorem Grows.trans (h : Grows g g') (h' : Grows g' g'') : Grows g g'' :=
  ⟨h'.dir.trans h.dir, h'.dirPage.trans h.dirPage, h'.live.trans h.live,
    fun n o ho => h'.owner n o (h.owner n o ho), fun f u hu => h'.use f u (h.use f u hu)⟩

theorem Grows.set_owner (h : Grows g g') {o : Option Owner}
    (hfresh : ∀ i < cnt, g.owner (n + i) = none) : Grows g (g'.setOwner n cnt o) := by
  refine ⟨h.dir, h.dirPage, h.live, fun m o' ho => ?_, h.use⟩
  rw [Ghost.set_owner_out, h.owner m o' ho]
  intro ⟨hlo, hhi⟩
  have hnone := hfresh (m - n) (by omega)
  rw [show n + (m - n) = m by omega, ho] at hnone
  simp at hnone

theorem Layout.mark (h : Layout s) (b cnt : Nat) (value : Bool) :
    Layout { s with kernelVaddr := s.kernelVaddr.mark b cnt value } := by
  refine ⟨h.1, h.2, h.3, h.4, ?_, ?_⟩
  · simpa using h.heapStart
  · simpa using h.heapEnd

/-- Pages of the kernel heap that hold no page directory in use get another holder. -/
theorem Frames.set_owner (h : Frames strict g s) {va : VirtualAddr}
    (hlayout : Layout { s with kernelVaddr := va }) (o : Option Owner)
    (hkeep : ∀ m, HeapPage m → ¬(n ≤ m ∧ m < n + cnt) →
      bitmapScanTest s.kernelVaddr.vaddrMap (m - 0xc0100) = true →
      bitmapScanTest va.vaddrMap (m - 0xc0100) = true)
    (hpages : ∀ i < cnt, (∀ o', o = some o' → HeapPage (n + i) ∧
      bitmapScanTest va.vaddrMap (n + i - 0xc0100) = true ∧
      (o' ≠ .reserved → ∃ f, Mapped g s.mem (n + i) f)) ∧
      ∀ p, g.owner (n + i) = some (.dir p) → g.dir p = none) :
    Frames strict (g.setOwner n cnt o) { s with kernelVaddr := va } := by
  refine h.of_owner rfl rfl hlayout rfl h.taken (fun m o' ho => ?_) fun m p ho hdir => ?_
  · by_cases hm : n ≤ m ∧ m < n + cnt
    · obtain ⟨i, rfl⟩ := Nat.exists_eq_add_of_le hm.1
      exact (hpages i (by omega)).1 o' (by simpa [hm] using ho)
    · obtain ⟨hheap, hbit, hmapped⟩ := h.owned m o' (by simpa [hm] using ho)
      exact ⟨hheap, hkeep m hheap hm hbit, hmapped⟩
  · rw [if_neg, ho]
    intro hm
    obtain ⟨i, rfl⟩ := Nat.exists_eq_add_of_le hm.1
    exact hdir ((hpages i (by omega)).2 p ho)

theorem Frames.reserve (h : Frames strict g s) (hcnt : 0 < cnt)
    (hscan : bitmapScan s.kernelVaddr.vaddrMap cnt = some b) :
    (∀ i < cnt, HeapPage (0xc0100 + b + i) ∧ g.owner (0xc0100 + b + i) = none) ∧
    Frames strict (g.setOwner (0xc0100 + b) cnt (some .reserved))
      { s with kernelVaddr := s.kernelVaddr.mark b cnt true } := by
  obtain ⟨hroom, hclear⟩ := bitmap_scan_eq_some _ hcnt hscan
  have hend := h.layout.heapEnd
  have hheap : ∀ i < cnt, HeapPage (0xc0100 + b + i) := by
    intro i hi
    unfold HeapPage
    omega
  have hfree : ∀ i < cnt, g.owner (0xc0100 + b + i) = none := by
    intro i hi
    by_contra hne
    obtain ⟨o, ho⟩ := Option.ne_none_iff_exists'.1 hne
    obtain ⟨-, hbit, -⟩ := h.owned _ o ho
    rw [show 0xc0100 + b + i - 0xc0100 = b + i by omega, hclear i hi] at hbit
    simp at hbit
  refine ⟨fun i hi => ⟨hheap i hi, hfree i hi⟩,
    h.set_owner (h.layout.mark _ _ _) _ (fun m _ _ hbit => ?_) fun i hi => ⟨?_, ?_⟩⟩
  · rw [VirtualAddr.mark_bit]
    split
    · rfl
    · exact hbit
  · rintro _ ⟨⟩
    refine ⟨hheap i hi, ?_, by simp⟩
    rw [VirtualAddr.mark_bit, if_pos (by omega)]
  · simp [hfree i hi]

/-- Pages that are reserved and mapped get their holder. -/
theorem Frames.claim (h : Frames strict g s) (o : Owner)
    (hpages : ∀ i < cnt, g.owner (n + i) = some .reserved ∧ ∃ f, Mapped g s.mem (n + i) f) :
    Frames strict (g.setOwner n cnt (some o)) s := by
  refine h.set_owner h.layout _ (fun _ _ _ => id) fun i hi => ?_
  obtain ⟨hreserved, hmapped⟩ := hpages i hi
  obtain ⟨hheap, hbit, -⟩ := h.owned _ _ hreserved
  refine ⟨?_, by simp [hreserved]⟩
  rintro _ ⟨⟩
  exact ⟨hheap, hbit, fun _ => hmapped⟩

/-- Kernel pages are allocated: they are mapped, and nobody held them. -/
theorem Frames.malloc_page_kernel (h : Frames strict g s) (pages : Nat) :
    wp any (mallocPage .kernel pages) s fun r last =>
      SameTasks s last ∧ last.cr3 = s.cr3 ∧ last.userPool = s.userPool ∧
      ∃ g', Grows g g' ∧ Frames strict g' last ∧ ∀ v, r = some v →
        v % 4096 = 0 ∧ last.kernelPool.free + pages = s.kernelPool.free ∧
        ∀ i < pages, g.owner (v / 4096 + i) = none ∧ g'.owner (v / 4096 + i) = some .reserved ∧
          ∃ f, Mapped g' last.mem (v / 4096 + i) f := by
  simp only [mallocPage, vaddrGet, wp_bind, wp_assert, wp_state, and_any,
    Bool.and_eq_true, decide_eq_true_eq]
  rintro ⟨hcnt, _⟩
  cases hscan : bitmapScan s.kernelVaddr.vaddrMap pages with
  | none =>
    exact ⟨⟨rfl, rfl, rfl, rfl, rfl, rfl⟩, rfl, rfl, g, (Extends.refl g).grows, h, by simp⟩
  | some b =>
    simp only [wp_bind, wp_update, wp_pure]
    obtain ⟨hfree, h1⟩ := h.reserve hcnt hscan
    have hstart := h.layout.heapStart
    rw [show s.kernelVaddr.vaddrStart + b * 4096 = (0xc0100 + b) * 4096 by omega]
    refine wp_mono (map_pages_kernel pages (0xc0100 + b) _ _ h1 ?_) ?_
    · intro i hi
      rw [Ghost.set_owner_in _ _ (by omega) (by omega)]
      exact ⟨(hfree i hi).1, by simp⟩
    · rintro r last ⟨hside, g', hext, hframes, _, hdone⟩
      have hgrows : Grows g g' :=
        Grows.trans ((Extends.refl g).grows.set_owner fun i hi => (hfree i hi).2) hext.grows
      have hsame : SameTasks s last := hside.quiet.same_tasks.after ⟨rfl, rfl, rfl, rfl, rfl, rfl⟩
      cases r with
      | false => exact ⟨hsame, hside.cr3, hside.userPool, g', hgrows, hframes, by simp⟩
      | true =>
        refine ⟨hsame, hside.cr3, hside.userPool, g', hgrows, hframes, ?_⟩
        rintro _ ⟨⟩
        obtain ⟨hcount, hmapped⟩ := hdone rfl
        refine ⟨by omega, hcount, fun i hi => ?_⟩
        rw [Nat.mul_div_cancel _ (by decide)]
        refine ⟨(hfree i hi).2, ?_, hmapped i hi⟩
        rw [hext.owner, Ghost.set_owner_in _ _ (by omega) (by omega)]

/-- The active address space finds a kernel page that is mapped. -/
theorem Frames.walk_mapped (h : Frames strict g s) (hv : v / 4096 = n)
    (hmap : KernelMap s.mem n f) : walk s.mem s.cr3 v = some f := by
  obtain ⟨hheap, hpresent, rfl⟩ := hmap
  simp [walk, h.active_kernel_entry hv hheap, pte_idx_of_page hv, hpresent]

/-- The contents of a page of the pools do not matter for the mapping of kernel pages. -/
theorem mapped_write_page_iff (hx : 0x200 ≤ x) (words : Nat → Nat) :
    Mapped g (update mem x words) n f ↔ Mapped g mem n f := by
  refine and_congr_left fun _ => and_congr_right fun hheap => ?_
  have hlt := kernel_table_lt hheap.2
  rw [update_of_ne (by omega)]

theorem Mapped.write_page (h : Mapped g mem n f) (hx : 0x200 ≤ x) (words : Nat → Nat) :
    Mapped g (update mem x words) n f :=
  (mapped_write_page_iff hx words).2 h

/-- Kernel pages that do not hold page directories are cleared. -/
theorem zero_pages_spec : ∀ (cnt n : Nat) (s : Vm), Frames strict g s →
    (∀ i < cnt, (∃ f, Mapped g s.mem (n + i) f) ∧
      ∀ p, g.owner (n + i) = some (.dir p) → g.dir p = none) →
    wp ok (zeroPages cnt (n * 4096)) s fun _ last =>
      KernelSide s last ∧ last.kernelPool = s.kernelPool ∧ Frames strict g last ∧
      (∀ m f, Mapped g s.mem m f → Mapped g last.mem m f) ∧
      (∀ i < cnt, ∀ f, Mapped g s.mem (n + i) f → last.mem f = fun _ => 0) ∧
      ∀ x, (∀ i < cnt, ¬Mapped g s.mem (n + i) x) → last.mem x = s.mem x := by
  intro cnt
  induction cnt with
  | zero =>
    intro n s h _
    exact ⟨.refl s, rfl, h, fun _ _ => id, by simp, fun _ _ => rfl⟩
  | succ cnt ih =>
    intro n s h hpages
    obtain ⟨⟨x, hx⟩, hnotdir⟩ := hpages 0 (by omega)
    have hplain := h.plain_mapped hx hnotdir
    have hnext : ∀ i, n + 1 + i = n + (i + 1) := fun i => by omega
    rw [zeroPages, wp_bind, wp_zero_page, h.walk_mapped (by omega) hx.1]
    simp only [of_some]
    rw [← Nat.add_one_mul]
    refine wp_mono (ih (n + 1) _ (h.write_page hplain _) fun i hi => ?_) ?_
    · rw [hnext]
      obtain ⟨⟨f, hf⟩, howner⟩ := hpages (i + 1) (by omega)
      exact ⟨⟨f, hf.write_page hplain.pool _⟩, howner⟩
    · intro _ last ⟨hside, hpool, hframes, hmapped, hcleared, hsame⟩
      simp only [mapped_write_page_iff hplain.pool, hnext] at hmapped hcleared hsame
      have hfirst : KernelSide s { s with mem := update s.mem x fun _ => 0 } :=
        ⟨⟨⟨rfl, rfl, rfl, rfl, rfl, rfl⟩, rfl, rfl⟩, rfl, rfl⟩
      refine ⟨hfirst.trans hside, hpool, hframes, hmapped, fun i hi f hf => ?_, fun y hy => ?_⟩
      · cases i with
        | zero =>
          obtain rfl : x = f := hx.1.2.2.symm.trans hf.1.2.2
          by_cases hlater : ∃ i < cnt, Mapped g s.mem (n + (i + 1)) x
          · obtain ⟨i, hi, hmap⟩ := hlater
            exact hcleared i hi x hmap
          · rw [hsame x fun i hi hmap => hlater ⟨i, hi, hmap⟩, update_self]
        | succ i => exact hcleared i (by omega) f hf
      · rw [hsame y fun i hi => hy (i + 1) (by omega), update_of_ne]
        rintro rfl
        exact hy 0 (by omega) hx

/-- `get_kernel_pages`: the pages are cleared, and whoever asked for them becomes their holder. -/
theorem Frames.get_kernel_pages (h : Frames strict g s) (pages : Nat) (o : Nat → Owner) :
    wp any (getKernelPages pages) s fun r last =>
      SameTasks s last ∧ last.cr3 = s.cr3 ∧ last.userPool = s.userPool ∧
      ∃ g', Grows g g' ∧ Frames strict g' last ∧ ∀ v, r = some v →
        v % 4096 = 0 ∧ last.kernelPool.free + pages = s.kernelPool.free ∧
        ∀ i < pages, g.owner (v / 4096 + i) = none ∧ g'.owner (v / 4096 + i) = some (o v) ∧
          ∃ f, Mapped g' last.mem (v / 4096 + i) f ∧ last.mem f = fun _ => 0 := by
  refine wp_seq (h.malloc_page_kernel pages) ?_
  rintro r mid ⟨hsame, hcr3, huser, g1, hgrows, h1, hserved⟩
  cases r with
  | none => exact ⟨hsame, hcr3, huser, g1, hgrows, h1, by simp⟩
  | some v =>
    obtain ⟨haligned, hfree, hpages⟩ := hserved v rfl
    simp only [wp_bind]
    rw [show v = v / 4096 * 4096 by omega]
    refine wp_mono (zero_pages_spec pages (v / 4096) mid h1 ?_) ?_
    · intro i hi
      obtain ⟨-, hreserved, hmapped⟩ := hpages i hi
      exact ⟨hmapped, by simp [hreserved]⟩
    · rintro _ last ⟨hside, hpool, h2, hmapped, hzero, _⟩
      refine ⟨hsame.trans hside.quiet.same_tasks, hside.cr3.trans hcr3, hside.userPool.trans huser,
        g1.setOwner (v / 4096) pages (some (o v)), hgrows.set_owner fun i hi => (hpages i hi).1,
        ?_, ?_⟩
      · refine h2.claim (o v) fun i hi => ?_
        obtain ⟨-, hreserved, f, hf⟩ := hpages i hi
        exact ⟨hreserved, f, hmapped _ f hf⟩
      · rintro _ ⟨⟩
        rw [← show v = v / 4096 * 4096 by omega]
        refine ⟨haligned, by rwa [hpool], fun i hi => ?_⟩
        obtain ⟨hnone, -, f, hf⟩ := hpages i hi
        refine ⟨hnone, ?_, f, hmapped _ f hf, hzero i hi f hf⟩
        rw [Ghost.set_owner_in _ _ (by omega) (by omega)]

end LosKernel.Mm
