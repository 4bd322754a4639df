import LosKernel.Mm.PageOps

/-!
# Giving pages back

What `pfree` and `mfree_page` do to a state that satisfies `Frames`. A kernel page that is freed
must have a holder that is no page directory in use. A user page is freed by the process that it
belongs to; where `strict` is to be kept, it must be recorded for that process.
-/

namespace LosKernel.Mm

open Prog

variable {n f p cnt dir x w : Nat} {ok : Stop → Prop} {g' g'' g : Ghost} {Q : Unit → Vm → Prop}
  {mid s last : Vm} {P : Nat → Nat → Prop} {mem : Nat → Nat → Nat} {P' : Use → Prop} {task : Task}
  {strict : Prop}

/-! ## Frames -/

/-- A frame of the kernel is given back to the pool of the kernel. -/
theorem wp_pfree_kernel (h : Layout s) (hlo : 0x200 ≤ f)
    (hhi : f * 4096 < s.userPool.phyAddrStart) : wp ok (pfree (f * 4096)) s Q ↔
      Q () (s.setPoolMap .kernel (bitmapSet s.kernelPool.poolMap (f - 0x200) false)) := by
  have hend := h.userEnd
  have hstart : (s.pool .kernel).phyAddrStart = 0x200000 := h.kernelStart
  simp only [pfree, wp_update, if_neg (show ¬s.userPool.phyAddrStart ≤ f * 4096 by omega),
    hstart]
  rw [show (f * 4096 + 2 ^ 32 - 0x200000) % 2 ^ 32 / 4096 = f - 0x200 by omega]
  rfl

/-- The bit of the user pool that `pfree` clears for an address. -/
def userBit (s : Vm) (addr : Nat) : Nat := (addr + 2 ^ 32 - s.userPool.phyAddrStart) % 2 ^ 32 / 4096

theorem wp_pfree_user {addr : Nat} (h : s.userPool.phyAddrStart ≤ addr) : wp ok (pfree addr) s Q ↔
      Q () (s.setPoolMap .user (bitmapSet s.userPool.poolMap (userBit s addr) false)) := by
  simp only [pfree, wp_update, if_pos h]
  rfl

/-- The frame whose bit `pfree` clears is the frame of the address. -/
theorem Frames.user_bit (h : Frames strict g s) (hf : g.use f = some (.user p n)) :
    userBit s (f * 4096) = f - s.userPool.phyAddrStart / 4096 := by
  obtain ⟨b, hb, haddr, -⟩ := h.taken f _ hf
  have hend := h.layout.userEnd
  simp only [Use.pool, Vm.pool] at hb haddr
  unfold userBit
  omega

/-! ## Kernel pages -/

/-- The entry of kernel page `n`. -/
def kernelEntry (mem : Nat → Nat → Nat) (n : Nat) : Nat := mem (kernelTable n) (n % 1024)

theorem kernel_entry_set_word {m : Nat} (hm : HeapPage m) (hn : HeapPage n) (hne : m ≠ n)
    (value : Nat) :
    kernelEntry (setWord mem (kernelTable n) (n % 1024) value) m = kernelEntry mem m := by
  have hlo := hm.1
  have hlo' := hn.1
  rw [kernelEntry, set_word_apply, if_neg, kernelEntry]
  unfold kernelTable
  omega

/-- The page tables of the kernel half lie below the frames of the pools. -/
theorem kernel_entry_congr {mem' : Nat → Nat → Nat} (h : ∀ f < 0x200, mem' f = mem f) {m : Nat}
    (hm : HeapPage m) : kernelEntry mem' m = kernelEntry mem m := by
  rw [kernelEntry, h _ (kernel_table_lt hm.2), kernelEntry]

/-- Pages of the kernel heap that are not taken are not mapped. -/
def Unmapped (s : Vm) : Prop :=
  ∀ n, HeapPage n → bitmapScanTest s.kernelVaddr.vaddrMap (n - 0xc0100) = false →
    present (kernelEntry s.mem n) = false

theorem Unmapped.congr (h : Unmapped s) (hmem : ∀ f < 0x200, last.mem f = s.mem f)
    (hvaddr : last.kernelVaddr = s.kernelVaddr) : Unmapped last := by
  intro n hn hbit
  rw [kernel_entry_congr hmem hn]
  exact h n hn (hvaddr ▸ hbit)

/-- What the freeing of `cnt` kernel pages from `n` on does to the memory: frames of the pools are
not written, other pages keep their entries, and the pages are not mapped. -/
structure PagesCleared (s : Vm) (n cnt : Nat) (last : Vm) : Prop where
  frames : ∀ f, 0x200 ≤ f → last.mem f = s.mem f
  others : ∀ m, HeapPage m → (∀ i < cnt, m ≠ n + i) → kernelEntry last.mem m = kernelEntry s.mem m
  absent : ∀ i < cnt, present (kernelEntry last.mem (n + i)) = false

/-- The ghost in which frame `f` has no use. -/
def Ghost.forget (g : Ghost) (f : Nat) : Ghost := { g with use := Function.update g.use f none }

theorem Ghost.forget_eq_some {u : Use} :
    (g.forget f).use x = some u ↔ x ≠ f ∧ g.use x = some u := by
  unfold forget
  by_cases hx : x = f
  · simp [hx]
  · simp [hx]

theorem Frames.unmap_kernel_page (h : Frames strict g s) (hmap : Mapped g s.mem n f)
    (howner : g.owner n = some .reserved) (hw : present w = false) : Frames strict (g.forget f)
      { s.setPoolMap .kernel (bitmapSet s.kernelPool.poolMap (f - 0x200) false) with
        mem := setWord s.mem (kernelTable n) (n % 1024) w } := by
  obtain ⟨hlo, -⟩ := h.kernel_frame hmap.2 rfl
  have hstart := h.layout.kernelStart
  refine h.set_kernel_entry (w := w) hmap.1.1 (by simp [howner]) (by rfl)
    (h.layout.backed_bit .kernel _ false _ ?_) ?_ ?_ (by simp [hw])
  · intro x u hx
    obtain ⟨hne, hold⟩ := Ghost.forget_eq_some.1 hx
    refine taken_clear_bit (h.taken x u hold) fun _ haddr => hne ?_
    simp only [Vm.pool] at haddr
    omega
  · intro x u hx hu
    refine Ghost.forget_eq_some.2 ⟨?_, hx⟩
    rintro rfl
    exact hu (by simpa [hmap.2] using hx.symm)
  · exact fun x u hx => .inl (Ghost.forget_eq_some.1 hx).2

/-- Pages that do not hold page directories in use lose their holder. -/
theorem Frames.disown (h : Frames strict g s)
    (hpages : ∀ i < cnt, g.owner (n + i) ≠ none ∧ ∀ p, g.owner (n + i) = some (.dir p) →
      g.dir p = none) : Frames strict (g.setOwner n cnt (some .reserved)) s := by
  refine h.set_owner h.layout _ (fun _ _ _ => id) fun i hi => ⟨?_, (hpages i hi).2⟩
  rintro _ ⟨⟩
  obtain ⟨o, ho⟩ := Option.ne_none_iff_exists'.1 (hpages i hi).1
  obtain ⟨hheap, hbit, -⟩ := h.owned _ o ho
  exact ⟨hheap, hbit, by simp⟩

/-- Pages that are reserved are given back to `vaddr_get`. -/
theorem Frames.unreserve (h : Frames strict g s) {b : Nat}
    (hpages : ∀ i < cnt, g.owner (0xc0100 + b + i) = some .reserved) :
    Frames strict (g.setOwner (0xc0100 + b) cnt none)
      { s with kernelVaddr := s.kernelVaddr.mark b cnt false } := by
  refine h.set_owner (h.layout.mark _ _ _) _ (fun m hm hout hbit => ?_) fun i hi =>
    ⟨by simp, by simp [hpages i hi]⟩
  have hlo := hm.1
  rw [VirtualAddr.mark_bit, if_neg (by omega)]
  exact hbit

/-- Ghost `g'` has the address spaces of `g` and the frames of the user pages. -/
structure KeepsUsers (g g' : Ghost) : Prop where
  dir : g'.dir = g.dir
  dirPage : g'.dirPage = g.dirPage
  live : g'.live = g.live
  use : ∀ f p n, g.use f = some (.user p n) → g'.use f = some (.user p n)

theorem KeepsUsers.set_owner (h : KeepsUsers g g') (n cnt : Nat) (o : Option Owner) :
    KeepsUsers g (g'.setOwner n cnt o) :=
  ⟨h.dir, h.dirPage, h.live, h.use⟩

/-- What `page_table_pte_remove` stores is not present. -/
theorem present_clear (entry : Nat) : present (entry - entry % 2) = false := by
  simp only [present, decide_eq_false_iff_not]
  omega

theorem pages_cleared_set_word (hn : HeapPage n) (hw : present w = false)
    (hmem : last.mem = setWord s.mem (kernelTable n) (n % 1024) w) : PagesCleared s n 1 last where
  frames := by
    intro f hf
    have hlt := kernel_table_lt hn.2
    rw [hmem, set_word_frame_ne _ _ _ (by omega)]
  others := by
    intro m hm hout
    rw [hmem, kernel_entry_set_word hm hn (hout 0 (by decide))]
  absent := by
    intro i hi
    rw [hmem, show n + i = n by omega, kernelEntry, set_word_same, hw]

/-- One round of the loop of `mfree_page` for kernel pages. -/
theorem Frames.unmap_page_kernel (h : Frames strict g s) (hmap : Mapped g s.mem n f)
    (howner : g.owner n = some .reserved) (ok : Stop → Prop)
    (hQ : ∀ last, KernelSide s last → Frames strict (g.forget f) last →
      PagesCleared s n 1 last → Q () last) : wp ok (do
      let pgPhyAddr ← addrV2p (n * 4096)
      let s ← state
      assert (pgPhyAddr % 4096 = 0 && s.kernelPool.phyAddrStart ≤ pgPhyAddr &&
        pgPhyAddr < s.userPool.phyAddrStart)
      pfree pgPhyAddr
      pageTablePteRemove (n * 4096)) s Q := by
  have hself := h.is_dir_active.self_mapped
  have hpde := h.active_kernel_entry (v := n * 4096) (by omega) hmap.1.1
  have hpte := pte_idx_of_page (v := n * 4096) (n := n) (by omega)
  obtain ⟨hlo, hhi⟩ := h.kernel_frame hmap.2 rfl
  obtain ⟨⟨hheap, hpresent, hframe⟩, huse⟩ := hmap
  have hpool : (decide True && decide (s.kernelPool.phyAddrStart ≤ f * 4096) &&
      decide (f * 4096 < s.userPool.phyAddrStart)) = true := by
    have hstart := h.layout.kernelStart
    simp only [Bool.and_eq_true, decide_eq_true_eq, true_and]
    omega
  have hself' : SelfMapped
      (s.setPoolMap .kernel (bitmapSet s.kernelPool.poolMap (f - 0x200) false)).mem
      (s.setPoolMap .kernel (bitmapSet s.kernelPool.poolMap (f - 0x200) false)).cr3 := hself
  simp only [wp_bind, wp_addr_v2p hself, hpde, frame_of_entry_for, hpte,
    Nat.mul_div_cancel _ (show 0 < 4096 by decide), Nat.mul_mod_left, Nat.add_zero, hframe,
    wp_state, wp_assert, hpool, wp_pfree_kernel h.layout hlo hhi, pageTablePteRemove,
    wp_load_pte hself', wp_store_pte hself']
  simp only [mem_set_pool_map, cr3_set_pool_map, hpde, present_entry_for, of_true,
    frame_of_entry_for, Nat.mul_div_cancel _ (show 0 < 4096 by decide)]
  refine hQ _ ⟨⟨⟨rfl, rfl, rfl, rfl, rfl, rfl⟩, rfl, rfl⟩, rfl, rfl⟩ ?_
    (pages_cleared_set_word hheap (present_clear (s.mem (kernelTable n) (n % 1024))) ?_)
  · exact h.unmap_kernel_page ⟨⟨hheap, hpresent, hframe⟩, huse⟩ howner (present_clear _)
  · dsimp only

/-- A page that somebody holds, and not as a page directory in use. -/
def Freeable (g : Ghost) (n : Nat) : Prop :=
  ∃ o, g.owner n = some o ∧ o ≠ .reserved ∧ ∀ p, o = .dir p → g.dir p = none

theorem PagesCleared.cons (h : PagesCleared s n 1 mid) (hn : HeapPage n)
    (h' : PagesCleared mid (n + 1) cnt last) : PagesCleared s n (cnt + 1) last where
  frames := fun f hf => (h'.frames f hf).trans (h.frames f hf)
  others := by
    intro m hm hout
    rw [h'.others m hm fun i hi => ?_, h.others m hm fun i hi => ?_]
    · have := hout i (by omega)
      omega
    · have := hout (i + 1) (by omega)
      omega
  absent := by
    intro i hi
    cases i with
    | zero =>
      rw [Nat.add_zero, h'.others n hn fun i _ => by omega]
      exact h.absent 0 (by omega)
    | succ i =>
      rw [show n + (i + 1) = n + 1 + i by omega]
      exact h'.absent i (by omega)

theorem unmap_pages_kernel :
    ∀ (cnt n : Nat) (g : Ghost) (s : Vm), Frames strict g s → (∀ i < cnt, Freeable g (n + i)) →
      wp ok (unmapPages .kernel cnt (n * 4096)) s fun _ last => KernelSide s last ∧
      PagesCleared s n cnt last ∧ ∃ g', KeepsUsers g g' ∧ Frames strict g' last ∧
      g'.owner = (g.setOwner n cnt (some .reserved)).owner := by
  intro cnt
  induction cnt with
  | zero =>
    intro n g s h _
    refine ⟨.refl s, ⟨fun _ _ => rfl, fun _ _ _ => rfl, by simp⟩, g,
      ⟨rfl, rfl, rfl, fun _ _ _ => id⟩, h, ?_⟩
    funext m
    rw [Ghost.set_owner_out _ _ (by omega)]
  | succ cnt ih =>
    intro n g s h hpages
    obtain ⟨o, ho, hmapped, hdir⟩ := hpages 0 (by omega)
    obtain ⟨f, hf⟩ := (h.owned n o ho).2.2 hmapped
    have h1 : Frames strict (g.setOwner n 1 (some .reserved)) s := by
      refine h.disown fun i hi => ?_
      obtain rfl : i = 0 := by omega
      simpa [show g.owner n = some o from ho] using hdir
    have hstep := h1.unmap_page_kernel (Q := fun _ mid =>
      wp ok (unmapPages .kernel cnt (n * 4096 + 4096)) mid fun _ last =>
        KernelSide s last ∧ PagesCleared s n (cnt + 1) last ∧ ∃ g', KeepsUsers g g' ∧
        Frames strict g' last ∧
          g'.owner = (g.setOwner n (cnt + 1) (some .reserved)).owner)
      hf (Ghost.set_owner_in _ _ (by omega) (by omega)) ok ?_
    · simpa only [unmapPages, wp_bind] using hstep
    intro mid hside h2 hcleared
    rw [← Nat.add_one_mul]
    refine wp_mono (ih (n + 1) _ mid h2 ?_) ?_
    · intro i hi
      obtain ⟨o', ho', hne, hdir'⟩ := hpages (i + 1) (by omega)
      refine ⟨o', ?_, hne, hdir'⟩
      rw [← ho', show n + 1 + i = n + (i + 1) by omega]
      exact Ghost.set_owner_out _ _ (by omega)
    · rintro _ last ⟨hside', hcleared', g', hkeeps, h3, howner⟩
      refine ⟨hside.trans hside', hcleared.cons hf.1.1 hcleared', g',
        ⟨hkeeps.dir, hkeeps.dirPage, hkeeps.live, fun x p m hx => ?_⟩, h3, ?_⟩
      · refine hkeeps.use x p m (Ghost.forget_eq_some.2 ⟨?_, hx⟩)
        -- the frame that was freed is not one of a user page
        rintro rfl
        simp [hf.2] at hx
      · rw [howner]
        funext m
        simp only [Ghost.setOwner, Ghost.forget]
        by_cases hm : n ≤ m ∧ m < n + (cnt + 1)
        · split
          · rfl
          · rw [if_pos (by omega)]
        · rw [if_neg (by omega), if_neg (by omega), if_neg hm]

/-- `mfree_page` for kernel pages: it returns, and nobody holds the pages any more. -/
theorem Frames.wp_mfree_page_kernel (h : Frames strict g s) (ok : Stop → Prop) (n : Nat)
    (hcnt : 0 < cnt) (hpages : ∀ i < cnt, Freeable g (n + i)) :
    wp ok (mfreePage .kernel (n * 4096) cnt) s fun _ last =>
      (SameTasks s last ∧ last.cr3 = s.cr3 ∧ last.userPool = s.userPool ∧
      ∃ g', KeepsUsers g g' ∧ Frames strict g' last ∧ g'.owner = (g.setOwner n cnt none).owner) ∧
      PagesCleared s n cnt last ∧
      last.kernelVaddr = s.kernelVaddr.mark (n - 0xc0100) cnt false := by
  have hself := h.is_dir_active.self_mapped
  obtain ⟨o, ho, hmapped, -⟩ := hpages 0 (by omega)
  obtain ⟨f, hf⟩ := (h.owned n o ho).2.2 hmapped
  have hheap := hf.1.1
  have hpde := h.active_kernel_entry (v := n * 4096) (by omega) hheap
  have hpte := pte_idx_of_page (v := n * 4096) (n := n) (by omega)
  obtain ⟨hlow, hhi⟩ := h.kernel_frame hf.2 rfl
  have hargs : (decide (1 ≤ cnt) && decide True) = true := by
    simp only [Bool.and_eq_true, decide_eq_true_eq, and_true]
    omega
  have hframe : (decide True && decide (0x102000 ≤ f * 4096)) = true := by
    simp only [Bool.and_eq_true, decide_eq_true_eq, true_and]
    omega
  simp only [mfreePage, wp_bind, wp_assert, Nat.mul_mod_left, hargs, wp_addr_v2p hself, hpde,
    present_entry_for, frame_of_entry_for, hpte, of_true, Nat.add_zero, hf.1.2.2, hframe,
    Nat.mul_div_cancel _ (show 0 < 4096 by decide), wp_ite]
  refine ⟨by omega, fun _ => ?_⟩
  refine wp_mono (unmap_pages_kernel cnt n g s h hpages) ?_
  rintro _ mid ⟨hside, hcleared, g1, hkeeps, h1, howner⟩
  simp only [vaddrRemove, wp_update]
  have hstart := h1.layout.heapStart
  have hlo := hheap.1
  have hhigh := hheap.2
  rw [show (n * 4096 + 2 ^ 32 - mid.kernelVaddr.vaddrStart) % 2 ^ 32 / 4096 = n - 0xc0100 by omega]
  refine ⟨⟨hside.quiet.same_tasks.trans ⟨rfl, rfl, rfl, rfl, rfl, rfl⟩, hside.cr3,
    hside.userPool, g1.setOwner (0xc0100 + (n - 0xc0100)) cnt none, hkeeps.set_owner _ _ _, ?_, ?_⟩,
    ⟨hcleared.frames, hcleared.others, hcleared.absent⟩, ?_⟩
  · refine h1.unreserve fun i hi => ?_
    rw [howner, Ghost.set_owner_in _ _ (by omega) (by omega)]
  · funext m
    simp only [Ghost.setOwner, howner]
    by_cases hm : n ≤ m ∧ m < n + cnt
    · rw [if_pos (by omega), if_pos hm]
    · rw [if_neg (by omega), if_neg hm, if_neg hm]
  · rw [← hside.quiet.kernelVaddr]
    rfl

theorem Frames.mfree_page_kernel (h : Frames strict g s) (n cnt : Nat)
    (hpages : ∀ i < cnt, Freeable g (n + i)) :
    wp any (mfreePage .kernel (n * 4096) cnt) s fun _ last =>
      SameTasks s last ∧ last.cr3 = s.cr3 ∧ last.userPool = s.userPool ∧
      ∃ g', KeepsUsers g g' ∧ Frames strict g' last ∧ g'.owner = (g.setOwner n cnt none).owner := by
  by_cases hcnt : cnt = 0
  · simp [mfreePage, hcnt]
  · exact wp_mono (h.wp_mfree_page_kernel _ n (by omega) hpages) fun _ _ hlast => hlast.1

/-! ## User pages -/

/-- Ghost `g'` differs from `g` in that uses that satisfy `P` may be gone. -/
structure Loses (strict : Prop) (P : Use → Prop) (g g' : Ghost) : Prop where
  dir : g'.dir = g.dir
  dirPage : g'.dirPage = g.dirPage
  live : g'.live = g.live
  owner : g'.owner = g.owner
  use : strict → ∀ f u, g.use f = some u → ¬P u → g'.use f = some u

theorem Loses.trans {P : Use → Prop} (h : Loses strict P g g') (h' : Loses strict P' g' g'') :
    Loses strict (fun u => P u ∨ P' u) g g'' := by
  refine ⟨h'.dir.trans h.dir, h'.dirPage.trans h.dirPage, h'.live.trans h.live,
    h'.owner.trans h.owner, ?_⟩
  intro hs f u hf hu
  exact h'.use hs f u (h.use hs f u hf fun hp => hu (.inl hp)) fun hp => hu (.inr hp)

theorem Loses.imp {P : Use → Prop} (h : Loses strict P g g') (himp : ∀ u, P u → P' u) :
    Loses strict P' g g' :=
  ⟨h.dir, h.dirPage, h.live, h.owner, fun hs f u hf hu => h.use hs f u hf fun hp => hu (himp u hp)⟩

/-- The bit of a frame of the user pool is cleared and its use is forgotten. -/
theorem Frames.backed_forget (h : Frames strict g s) (b : Nat) (mem : Nat → Nat → Nat) :
    Backed (g.forget (s.userPool.phyAddrStart / 4096 + b)).use s
      { s.setPoolMap .user (bitmapSet s.userPool.poolMap b false) with mem := mem } := by
  refine h.layout.backed_bit .user b false mem fun x u hx => ?_
  obtain ⟨hne, hold⟩ := Ghost.forget_eq_some.1 hx
  refine taken_clear_bit (h.taken x u hold) fun _ haddr => hne ?_
  simp only [Vm.pool] at haddr
  omega

/-- One round of the loop of `mfree_page` for user pages. -/
theorem Frames.unmap_page_user (h : Frames strict g s) (hlive : g.live p)
    (hdir : g.dir p = some s.cr3) (hn : n < 0xc0000)
    (hrec : strict → ∃ f, g.use f = some (.user p n))
    (hQ : ∀ last g', Quiet s last → last.cr3 = s.cr3 → Frames strict g' last →
      Loses strict (· = .user p n) g g' → Q () last) : wp any (do
      let pgPhyAddr ← addrV2p (n * 4096)
      let s ← state
      assert (pgPhyAddr % 4096 = 0 && s.userPool.phyAddrStart ≤ pgPhyAddr)
      pfree pgPhyAddr
      pageTablePteRemove (n * 4096)) s Q := by
  have hself := h.is_dir_active.self_mapped
  obtain ⟨hpde, hpte⟩ := page_indices (n := n) (by omega)
  simp only [wp_bind, wp_addr_v2p hself, hpde, hpte, Nat.mul_mod_left, Nat.add_zero, wp_assert,
    and_any, Bool.and_eq_true, decide_eq_true_eq, true_and]
  intro hpresent hstart
  generalize ht : frameOf (s.mem s.cr3 (n / 1024)) = t at *
  generalize hw : s.mem t (n % 1024) = w at *
  have htable : TableAt s.mem s.cr3 (n / 1024) t := ⟨by omega, hpresent, ht⟩
  rw [wp_pfree_user hstart]
  generalize hb : userBit s (frameOf w * 4096) = b
  have hself' : SelfMapped (s.setPoolMap .user (bitmapSet s.userPool.poolMap b false)).mem
      (s.setPoolMap .user (bitmapSet s.userPool.poolMap b false)).cr3 := hself
  simp only [pageTablePteRemove, wp_bind, wp_load_pte hself', wp_store_pte hself',
    mem_set_pool_map, cr3_set_pool_map, hpde, hpte, hpresent, forall_const, and_any, ht, hw]
  -- the frame whose bit was cleared; under `strict` it is the frame of the page
  have hframe : strict → ∃ f, frameOf w = f ∧ g.use f = some (.user p n) ∧
      s.userPool.phyAddrStart / 4096 + b = f := by
    intro hs
    obtain ⟨f, hf⟩ := hrec hs
    obtain ⟨-, dir', hdir', t', ht', hpresent', hf'⟩ := h.mapped hs f p n hf
    obtain rfl : s.cr3 = dir' := by simpa [hdir] using hdir'
    obtain rfl : t = t' := ht.symm.trans ht'.2.2
    rw [hw] at hf'
    have hbit := h.user_bit hf
    rw [hf'] at hb
    exact ⟨f, hf', hf, by omega⟩
  refine hQ _ (g.forget (s.userPool.phyAddrStart / 4096 + b)) ⟨⟨rfl, rfl, rfl, rfl, rfl, rfl⟩,
    rfl, rfl⟩ rfl ?_
    ⟨rfl, rfl, rfl, rfl, ?_⟩
  · refine h.set_user_entry (w := w - w % 2) hlive hdir htable rfl (h.backed_forget b _)
      ?_ ?_ ?_ ?_
    · intro x u hx hu hkind
      refine Ghost.forget_eq_some.2 ⟨?_, hx⟩
      rintro rfl
      rcases hkind with hs | hkernel
      · obtain ⟨f, -, huse, hb'⟩ := hframe hs
        rw [hb', huse] at hx
        exact hu (by simpa using hx.symm)
      · have hhi := (h.kernel_frame hx hkernel).2
        have hal := h.layout.userStart
        omega
    · intro hs x u hx
      obtain ⟨hne, hold⟩ := Ghost.forget_eq_some.1 hx
      obtain ⟨f, hf, huse, hb'⟩ := hframe hs
      refine .inl ⟨hold, ?_⟩
      rintro rfl
      obtain ⟨-, dir', hdir', t', ht', hpresent', hf'⟩ := h.mapped hs x p n hold
      obtain rfl : s.cr3 = dir' := by simpa [hdir] using hdir'
      obtain rfl : t = t' := ht.symm.trans ht'.2.2
      rw [hw] at hf'
      omega
    · right
      have hsame : frameOf (w - w % 2) = frameOf w := by
        unfold frameOf
        omega
      rwa [hsame]
    · simp [present_clear]
  · intro hs x u hx hu
    obtain ⟨f, -, huse, hb'⟩ := hframe hs
    refine Ghost.forget_eq_some.2 ⟨?_, hx⟩
    rintro rfl
    rw [hb', huse] at hx
    exact hu (by simpa using hx.symm)

theorem unmap_pages_user : ∀ (cnt n : Nat) (g : Ghost) (s : Vm), Frames strict g s →
    g.live p → g.dir p = some s.cr3 → n + cnt ≤ 0xc0000 →
    (strict → ∀ i < cnt, ∃ f, g.use f = some (.user p (n + i))) →
    wp any (unmapPages .user cnt (n * 4096)) s fun _ last =>
      Quiet s last ∧ last.cr3 = s.cr3 ∧ ∃ g', Frames strict g' last ∧
        Loses strict (fun u => ∃ i < cnt, u = .user p (n + i)) g g' := by
  intro cnt
  induction cnt with
  | zero =>
    intro n g s h _ _ _ _
    exact ⟨Std.Refl.refl s, rfl, g, h, rfl, rfl, rfl, rfl, fun _ _ _ hf _ => hf⟩
  | succ cnt ih =>
    intro n g s h hlive hdir hn hrec
    have hstep := h.unmap_page_user (Q := fun _ mid =>
      wp any (unmapPages .user cnt (n * 4096 + 4096)) mid fun _ last =>
        Quiet s last ∧ last.cr3 = s.cr3 ∧ ∃ g', Frames strict g' last ∧
          Loses strict (fun u => ∃ i < cnt + 1, u = .user p (n + i)) g g')
      (n := n) hlive hdir (by omega) (fun hs => hrec hs 0 (by omega)) ?_
    · simpa only [unmapPages, wp_bind] using hstep
    intro mid g1 hquiet hcr3 h1 hloses
    rw [← Nat.add_one_mul]
    refine wp_mono (ih (n + 1) g1 mid h1 (hloses.live ▸ hlive)
      (by rw [hloses.dir, hcr3]; exact hdir) (by omega) ?_) ?_
    · intro hs i hi
      obtain ⟨f, hf⟩ := hrec hs (i + 1) (by omega)
      refine ⟨f, ?_⟩
      rw [show n + 1 + i = n + (i + 1) by omega]
      exact hloses.use hs f _ hf (by simp)
    · rintro _ last ⟨hquiet', hcr3', g', h2, hloses'⟩
      refine ⟨IsTrans.trans _ _ _ hquiet hquiet', hcr3'.trans hcr3, g', h2, ?_⟩
      refine (hloses.trans hloses').imp ?_
      rintro u (rfl | ⟨i, hi, rfl⟩)
      · exact ⟨0, by omega, rfl⟩
      · exact ⟨i + 1, by omega, by rw [show n + 1 + i = n + (i + 1) by omega]⟩

/-- The part of a control block that requests for pages leave alone. -/
def Task.shape (task : Task) : Int × Int × TaskStatus × Nat × Nat × Nat × Nat :=
  (task.pid, task.parentPid, task.status, task.pgdir, task.userprogVaddr.vaddrStart,
    task.userprogVaddr.vaddrMap.btmpBytesLen, task.bitsAddr)

/-- The control blocks differ in the marks of their virtual pages only. -/
structure SameShapes (s last : Vm) : Prop where
  tasks : ∀ q, (last.tasks q).map Task.shape = (s.tasks q).map Task.shape
  threadAllList : last.threadAllList = s.threadAllList
  mainThread : last.mainThread = s.mainThread
  cur : last.cur = s.cur

theorem SameShapes.trans (h : SameShapes s mid) (h' : SameShapes mid last) : SameShapes s last :=
  ⟨fun q => (h'.tasks q).trans (h.tasks q), h'.threadAllList.trans h.threadAllList,
    h'.mainThread.trans h.mainThread, h'.cur.trans h.cur⟩

theorem SameTasks.same_shapes (h : SameTasks s last) : SameShapes s last :=
  ⟨fun q => by rw [h.tasks], h.threadAllList, h.mainThread, h.cur⟩

/-- Other marks are stored in the control block of the running process. -/
theorem SameShapes.store (htask : s.tasks s.cur = some task) {m : BitMap}
    (hm : m.btmpBytesLen = task.userprogVaddr.vaddrMap.btmpBytesLen) :
    SameShapes s { s with
      tasks := Function.update s.tasks s.cur
        (some { task with userprogVaddr := { task.userprogVaddr with vaddrMap := m } }) } := by
  refine ⟨fun q => ?_, rfl, rfl, rfl⟩
  by_cases hq : q = s.cur
  · subst hq
    simp [htask, Task.shape, hm]
  · simp [Function.update_of_ne hq]

/-- Marks of virtual pages of processes stay set, but for those in `P`. -/
def MarksKept (P : Nat → Nat → Prop) (s last : Vm) : Prop :=
  ∀ q task, s.tasks q = some task → ∃ task', last.tasks q = some task' ∧
    ∀ j, ¬P q j → bitmapScanTest task.userprogVaddr.vaddrMap j = true →
      bitmapScanTest task'.userprogVaddr.vaddrMap j = true

theorem MarksKept.of_tasks (h : last.tasks = s.tasks) :
    MarksKept P s last := fun _ task htask => ⟨task, by rw [h, htask], fun _ _ => id⟩

theorem MarksKept.trans (h : MarksKept P s mid) (h' : MarksKept P mid last) :
    MarksKept P s last := by
  intro q task htask
  obtain ⟨task1, htask1, hkept1⟩ := h q task htask
  obtain ⟨task2, htask2, hkept2⟩ := h' q task1 htask1
  exact ⟨task2, htask2, fun j hj hbit => hkept2 j hj (hkept1 j hj hbit)⟩

theorem MarksKept.store {new : Task} (htask : s.tasks p = some task)
    (hbits : ∀ j, ¬P p j → bitmapScanTest task.userprogVaddr.vaddrMap j = true →
      bitmapScanTest new.userprogVaddr.vaddrMap j = true) :
    MarksKept P s { s with tasks := Function.update s.tasks p (some new) } := by
  intro q task' htask'
  by_cases hq : q = p
  · subst hq
    obtain rfl : task = task' := by simpa [htask] using htask'
    exact ⟨new, by simp, hbits⟩
  · exact ⟨task', by simpa [Function.update_of_ne hq] using htask', fun _ _ => id⟩

theorem Frames.mfree_page_user (h : Frames strict g s) (hlive : g.live p)
    (hdir : g.dir p = some s.cr3) (hlo : 0x8048 ≤ n) (hn : n + cnt ≤ 0xc0000)
    (huser : ∀ task, s.tasks s.cur = some task → task.userprogVaddr.vaddrStart = userVaddrStart)
    (hrec : strict → ∀ i < cnt, ∃ f, g.use f = some (.user p (n + i))) :
    wp any (mfreePage .user (n * 4096) cnt) s fun _ last =>
      SameShapes s last ∧
      MarksKept (fun q j => q = s.cur ∧ n ≤ j + 0x8048 ∧ j + 0x8048 < n + cnt) s last ∧
      last.cr3 = s.cr3 ∧ ∃ g', Frames strict g' last ∧
        Loses strict (fun u => ∃ i < cnt, u = .user p (n + i)) g g' := by
  have hself := h.is_dir_active.self_mapped
  simp only [mfreePage, wp_bind, wp_assert, and_any, Bool.and_eq_true, decide_eq_true_eq]
  rintro ⟨hcnt, _⟩
  obtain ⟨hpde, hpte⟩ := page_indices (n := n) (by omega)
  simp only [wp_addr_v2p hself, hpde, hpte, Nat.mul_mod_left, Nat.add_zero, and_any, wp_ite]
  intro hpresent hlow
  -- an entry that is not 0 refers to a frame of the user pool
  have hstart : s.userPool.phyAddrStart ≤
      frameOf (s.mem (frameOf (s.mem s.cr3 (n / 1024))) (n % 1024)) * 4096 := by
    rcases h.entries p s.cr3 hlive hdir (n / 1024) _ ⟨by omega, hpresent, rfl⟩ (n % 1024) with
      hzero | hstart
    · rw [hzero] at hlow
      simp [frameOf] at hlow
    · exact hstart
  refine ⟨fun _ => ?_, fun hnot => absurd hstart hnot⟩
  refine wp_seq (unmap_pages_user cnt n g s h hlive hdir hn hrec) ?_
  rintro _ mid ⟨hquiet, hcr3, g', h1, hloses⟩
  simp only [vaddrRemove, wp_bind, wp_running_thread, and_any]
  intro task htask
  refine ⟨hquiet.same_tasks.same_shapes.trans (.store htask (bitmap_set_range_len _ _ _ _)),
    (MarksKept.of_tasks hquiet.tasks).trans (.store htask fun j hj hbit => ?_), hcr3, g',
    h1.congr rfl rfl rfl rfl rfl, hloses⟩
  have htask' : s.tasks s.cur = some task := by rw [← hquiet.tasks, ← hquiet.cur, htask]
  rw [huser task htask', userVaddrStart, scan_test_set_range, if_neg]
  · exact hbit
  · rintro ⟨hlo', hhi'⟩
    exact hj ⟨hquiet.cur, by omega, by omega⟩

/-! ## The user half of a process that exits -/

/-- Ghost `g'` differs from `g` in that it records fewer uses, and under `strict` the same. -/
structure Shrinks (strict : Prop) (g g' : Ghost) : Prop where
  dir : g'.dir = g.dir
  dirPage : g'.dirPage = g.dirPage
  live : g'.live = g.live
  owner : g'.owner = g.owner
  sub : ∀ f u, g'.use f = some u → g.use f = some u
  same : strict → ∀ f u, g.use f = some u → g'.use f = some u

theorem Shrinks.refl (g : Ghost) : Shrinks strict g g :=
  ⟨rfl, rfl, rfl, rfl, fun _ _ => id, fun _ _ _ => id⟩

theorem Shrinks.trans (h : Shrinks strict g g') (h' : Shrinks strict g' g'') :
    Shrinks strict g g'' :=
  ⟨h'.dir.trans h.dir, h'.dirPage.trans h.dirPage, h'.live.trans h.live, h'.owner.trans h.owner,
    fun f u hf => h.sub f u (h'.sub f u hf), fun hs f u hf => h'.same hs f u (h.same hs f u hf)⟩

theorem Frames.forget (h : Frames strict g s) (hs : strict → g.use x = none)
    (hx : ∀ u, g.use x = some u → u.pool = .user) : Frames strict (g.forget x) s := by
  have hkernel : ∀ f u, g.use f = some u → u.pool = .kernel → (g.forget x).use f = some u := by
    intro f u hf hu
    refine Ghost.forget_eq_some.2 ⟨?_, hf⟩
    rintro rfl
    simp [hx u hf] at hu
  have hsame : strict → ∀ f u, g.use f = some u → (g.forget x).use f = some u := by
    intro hs' f u hf
    refine Ghost.forget_eq_some.2 ⟨?_, hf⟩
    rintro rfl
    simp [hs hs'] at hf
  refine ⟨h.layout, h.root, h.rootSelf, h.low, ?_, h.active, ?_, ?_, ?_, ?_, h.entries, ?_, ?_⟩
  · intro p dir hp
    obtain ⟨hisdir, howner, hmap, huse⟩ := h.dirs p dir hp
    exact ⟨hisdir, howner, hmap, hkernel _ _ huse rfl⟩
  · exact fun f u hf => h.taken f u (Ghost.forget_eq_some.1 hf).2
  · intro n o ho
    obtain ⟨hheap, hbit, hmapped⟩ := h.owned n o ho
    refine ⟨hheap, hbit, fun hne => ?_⟩
    obtain ⟨f, hmap, huse⟩ := hmapped hne
    exact ⟨f, hmap, hkernel _ _ huse rfl⟩
  · exact fun hs' n f hmap => hsame hs' _ _ (h.kernelPages hs' n f hmap)
  · intro p dir hl hp i t ht
    rcases h.tables p dir hl hp i t ht with hzero | huse
    · exact .inl hzero
    · exact .inr (hkernel _ _ huse rfl)
  · exact fun hs' p dir hl hp n f hmap => hsame hs' _ _ (h.userPages hs' p dir hl hp n f hmap)
  · exact fun hs' f p n huse => h.mapped hs' f p n (Ghost.forget_eq_some.1 huse).2

/-- Only bits of the pools change. -/
structure OnlyPools (s last : Vm) : Prop where
  quiet : Quiet s last
  mem : last.mem = s.mem
  cr3 : last.cr3 = s.cr3
  userStart : last.userPool.phyAddrStart = s.userPool.phyAddrStart

theorem OnlyPools.refl (s : Vm) : OnlyPools s s := ⟨Std.Refl.refl s, rfl, rfl, rfl⟩

theorem OnlyPools.trans (h : OnlyPools s mid) (h' : OnlyPools mid last) : OnlyPools s last :=
  ⟨IsTrans.trans _ _ _ h.quiet h'.quiet, h'.mem.trans h.mem, h'.cr3.trans h.cr3,
    h'.userStart.trans h.userStart⟩

theorem only_pools_set (s : Vm) (t : PoolType) (m : BitMap) : OnlyPools s (s.setPoolMap t m) :=
  ⟨quiet_set_pool_map s t m, mem_set_pool_map s t m, cr3_set_pool_map s t m,
    user_start_set_pool_map s t m⟩

/-- A frame without a use, or frame 0, is given back. Without `strict` a frame of the user pool may
have a use, which is then gone. -/
theorem Frames.pfree_unused (h : Frames strict g s)
    (hkernel : f * 4096 < s.userPool.phyAddrStart → (f = 0 ∨ 0x200 ≤ f) ∧ g.use f = none)
    (huser : s.userPool.phyAddrStart ≤ f * 4096 → strict → g.use f = none ∧ f * 4096 < 2 ^ 32) :
    wp ok (pfree (f * 4096)) s fun _ last =>
      OnlyPools s last ∧ ∃ g', Shrinks strict g g' ∧ Frames strict g' last := by
  have hal := h.layout.userStart
  by_cases hf : s.userPool.phyAddrStart ≤ f * 4096
  · rw [wp_pfree_user hf]
    generalize hb : userBit s (f * 4096) = b
    have hnone : strict → g.use (s.userPool.phyAddrStart / 4096 + b) = none := by
      intro hs
      obtain ⟨hnone, hlt⟩ := huser hf hs
      unfold userBit at hb
      rw [show s.userPool.phyAddrStart / 4096 + b = f by omega]
      exact hnone
    have hpool : ∀ u, g.use (s.userPool.phyAddrStart / 4096 + b) = some u → u.pool = .user := by
      intro u hu
      cases hkind : u.pool with
      | user => rfl
      | kernel =>
        have := h.kernel_frame hu hkind
        omega
    refine ⟨only_pools_set s .user _, g.forget _, ⟨rfl, rfl, rfl, rfl, ?_, ?_⟩,
      (h.forget hnone hpool).of_pools rfl (h.backed_forget b _)⟩
    · exact fun x u hx => (Ghost.forget_eq_some.1 hx).2
    · intro hs x u hx
      refine Ghost.forget_eq_some.2 ⟨?_, hx⟩
      rintro rfl
      simp [hnone hs] at hx
  · obtain ⟨hplace, hnone⟩ := hkernel (by omega)
    have hend := h.layout.userEnd
    simp only [pfree, wp_update, if_neg hf]
    refine ⟨only_pools_set s .kernel _, g, .refl g, h.of_pools rfl
      (h.layout.backed_bit .kernel _ false _ fun x u hx => ?_)⟩
    refine taken_clear_bit (h.taken x u hx) fun hkind haddr => ?_
    have hxlo := h.kernel_frame hx hkind
    rcases hplace with rfl | hlo
    · -- the bit for frame 0 lies outside the bitmap
      omega
    · obtain rfl : x = f := by omega
      simp [hnone] at hx

/-- The frames that the user half of `dir` refers to have no use any more. -/
def Unused (strict : Prop) (g : Ghost) (s : Vm) (dir : Nat) : Prop :=
  ∀ i t, TableAt s.mem dir i t → (t = 0 ∨ 0x200 ≤ t) ∧ t * 4096 < s.userPool.phyAddrStart ∧
    g.use t = none ∧ ∀ j < 1024, present (s.mem t j) = true →
      s.userPool.phyAddrStart ≤ frameOf (s.mem t j) * 4096 ∧
      (strict → g.use (frameOf (s.mem t j)) = none ∧ frameOf (s.mem t j) * 4096 < 2 ^ 32)

theorem Unused.mono (h : Unused strict g s dir) (hpools : OnlyPools s last)
    (hg : Shrinks strict g g') : Unused strict g' last dir := by
  have hnone : ∀ f, g.use f = none → g'.use f = none := by
    intro f hf
    by_contra hne
    obtain ⟨u, hu⟩ := Option.ne_none_iff_exists'.1 hne
    simpa [hf] using hg.sub f u hu
  intro i t ht
  rw [hpools.mem] at ht ⊢
  rw [hpools.userStart]
  obtain ⟨hplace, hlow, huse, hentries⟩ := h i t ht
  refine ⟨hplace, hlow, hnone t huse, fun j hlt hj => ?_⟩
  obtain ⟨hstart, hfree⟩ := hentries j hlt hj
  exact ⟨hstart, fun hs => ⟨hnone _ (hfree hs).1, (hfree hs).2⟩⟩

/-- A process that gives up its user half leaves frames without a use. -/
theorem Frames.unused_of_drop (h : Frames strict g s) (hlive : g.live p)
    (hdir : g.dir p = some dir) :
    Unused strict { g with use := g.useWithout p, live := fun q => g.live q ∧ q ≠ p } s dir := by
  have hnone : ∀ f u, g.use f = some u → (∃ n, u = .user p n) ∨ (∃ i, u = .table p i) →
      g.useWithout p f = none := by
    intro f u hf hu
    by_contra hne
    obtain ⟨u', hu'⟩ := Option.ne_none_iff_exists'.1 hne
    obtain ⟨hold, huser, htable⟩ := Ghost.use_without_eq_some.1 hu'
    obtain rfl : u = u' := by simpa [hf] using hold
    rcases hu with ⟨n, rfl⟩ | ⟨i, rfl⟩
    · exact huser n rfl
    · exact htable i rfl
  intro i t ht
  have hapart := h.layout.poolsApart
  have huse : g.useWithout p t = none := by
    rcases h.tables p dir hlive hdir i t ht with ⟨-, rfl⟩ | huse
    · by_contra hne
      obtain ⟨u, hu⟩ := Option.ne_none_iff_exists'.1 hne
      obtain ⟨b, -, haddr, -⟩ := h.taken 0 u (Ghost.use_without_eq_some.1 hu).1
      have hstart := h.layout.kernelStart
      cases hkind : u.pool <;> simp only [hkind, Vm.pool] at haddr <;> omega
    · exact hnone t _ huse (.inr ⟨i, rfl⟩)
  have hplace := h.table_frame hlive hdir ht
  refine ⟨by omega, by omega, huse, fun j hlt hj => ⟨?_, fun hs => ?_⟩⟩
  · rcases h.entries p dir hlive hdir i t ht j with hzero | hstart
    · simp [hzero, present] at hj
    · exact hstart
  · have hpde : (i * 1024 + j) / 1024 = i := by omega
    have hpte : (i * 1024 + j) % 1024 = j := by omega
    have hpage := h.userPages hs p dir hlive hdir (i * 1024 + j) (frameOf (s.mem t j))
      ⟨t, by rwa [hpde], by rwa [hpte], by rw [hpte]⟩
    obtain ⟨b, hb, haddr, -⟩ := h.taken _ _ hpage
    have hend := h.layout.userEnd
    simp only [Use.pool, Vm.pool] at hb haddr
    exact ⟨hnone _ _ hpage (.inl ⟨_, rfl⟩), by omega⟩

/-- The pages of one page table of the user half are given back. -/
theorem release_table_spec {i : Nat} (hi : i < 0x300) :
    ∀ (cnt j : Nat) (g : Ghost) (s : Vm), Frames strict g s → s.cr3 = dir → Unused strict g s dir →
    present (s.mem dir i) = true → j + cnt ≤ 1024 →
    wp ok (releaseTable i cnt j) s fun _ last =>
      OnlyPools s last ∧ ∃ g', Shrinks strict g g' ∧ Frames strict g' last := by
  intro cnt
  induction cnt with
  | zero =>
    intro j g s h _ _ _ _
    exact ⟨.refl s, g, .refl g, h⟩
  | succ cnt ih =>
    intro j g s h hcr3 hunused hpresent hj
    have hself := h.is_dir_active.self_mapped
    have hpde : pdeIdx ((i * 1024 + j) * 4096) = i := by
      unfold pdeIdx
      omega
    have hpte : pteIdx ((i * 1024 + j) * 4096) = j := by
      unfold pteIdx
      omega
    have hptr : ptePtr (i * 0x400000) + j * 4 = ptePtr ((i * 1024 + j) * 4096) := by
      unfold ptePtr pdeIdx pteIdx
      omega
    rw [releaseTable, hptr]
    rw [← hcr3] at hpresent
    simp only [wp_bind, wp_load_pte hself, hpde, hpresent, of_true]
    have htable : TableAt s.mem dir i (frameOf (s.mem s.cr3 i)) := by
      rw [hcr3] at hpresent ⊢
      exact ⟨hi, hpresent, rfl⟩
    obtain ⟨-, -, -, hentries⟩ := hunused i _ htable
    have hrest : ∀ g1 mid, Frames strict g1 mid → OnlyPools s mid → Shrinks strict g g1 →
        wp ok (releaseTable i cnt (j + 1)) mid fun _ last =>
          OnlyPools s last ∧ ∃ g', Shrinks strict g g' ∧ Frames strict g' last := by
      intro g1 mid h1 hpools hg1
      refine wp_mono (ih (j + 1) g1 mid h1 (hpools.cr3.trans hcr3) (hunused.mono hpools hg1)
        (by rwa [hpools.mem, ← hcr3]) (by omega)) ?_
      rintro _ last ⟨hpools', g', hg', h'⟩
      exact ⟨hpools.trans hpools', g', hg1.trans hg', h'⟩
    rw [wp_when, hpde, hpte]
    refine ⟨fun hentry => ?_, fun _ => hrest g s h (.refl s) (.refl g)⟩
    obtain ⟨hstart, hfree⟩ := hentries j (by omega) hentry
    refine wp_mono (h.pfree_unused (fun hlow => ?_) fun _ hs => hfree hs) ?_
    · unfold frameOf at *
      omega
    · rintro _ mid ⟨hpools, g1, hg1, h1⟩
      exact hrest g1 mid h1 hpools hg1

/-- The user half of a page directory that is mapped as kernel page `n` is given back. -/
theorem release_tables_spec : ∀ (cnt i : Nat) (g : Ghost) (s : Vm),
    Frames strict g s → s.cr3 = dir → KernelMap s.mem n dir → Unused strict g s dir →
    i + cnt ≤ 0x300 →
    wp ok (releaseTables (n * 4096) cnt i) s fun _ last =>
      OnlyPools s last ∧ ∃ g', Shrinks strict g g' ∧ Frames strict g' last := by
  intro cnt
  induction cnt with
  | zero =>
    intro i g s h _ _ _ _
    exact ⟨.refl s, g, .refl g, h⟩
  | succ cnt ih =>
    intro i g s h hcr3 hmap hunused hi
    have hrest : ∀ g1 mid, Frames strict g1 mid → OnlyPools s mid → Shrinks strict g g1 →
        wp ok (releaseTables (n * 4096) cnt (i + 1)) mid fun _ last =>
          OnlyPools s last ∧ ∃ g', Shrinks strict g g' ∧ Frames strict g' last := by
      intro g1 mid h1 hpools hg1
      refine wp_mono (ih (i + 1) g1 mid h1 (hpools.cr3.trans hcr3)
        (by rw [hpools.mem]; exact hmap) (hunused.mono hpools hg1) (by omega)) ?_
      rintro _ last ⟨hpools', g', hg', h'⟩
      exact ⟨hpools.trans hpools', g', hg1.trans hg', h'⟩
    have hwalk : walk s.mem s.cr3 (n * 4096 + i * 4) = some dir :=
      h.walk_mapped (by omega) hmap
    have hword : (n * 4096 + i * 4) % 4096 / 4 = i := by omega
    simp only [releaseTables, load, wp_bind, wp_frame_at, hwalk, of_some, wp_state, wp_pure]
    rw [wp_when, hword]
    refine ⟨fun hpresent => ?_, fun _ => hrest g s h (.refl s) (.refl g)⟩
    refine wp_seq (release_table_spec (by omega) 1024 0 g s h hcr3 hunused hpresent (by omega)) ?_
    rintro _ mid ⟨hpools, g1, hg1, h1⟩
    obtain ⟨hplace, hlow, huse, -⟩ :=
      hunused.mono hpools hg1 i (frameOf (s.mem dir i)) ⟨by omega, by rwa [hpools.mem], by
        rw [hpools.mem]⟩
    refine wp_mono (h1.pfree_unused (f := frameOf (s.mem dir i)) (fun _ => ⟨hplace, huse⟩)
      fun hstart => by omega) ?_
    rintro _ mid2 ⟨hpools2, g2, hg2, h2⟩
    exact hrest g2 mid2 h2 (hpools.trans hpools2) (hg1.trans hg2)

end LosKernel.Mm
