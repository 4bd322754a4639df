import LosKernel.Mm.Freeing

/-!
# Pages of processes

What the requests for user pages and the copying of an address space do to a state that satisfies
`Frames`. `page_table_add` does not notice when there is no frame for a page table. `Room` says
that there is one for every page table that is missing; it is what keeps `strict`.
-/

namespace LosKernel.Mm

open Prog

variable {strict : Prop} {g : Ghost} {s last : Vm} {dir n p v : Nat} {task : Task}

/-! ## Page tables that are missing -/

/-- The number of page tables that directory `dir` lacks for the pages. -/
def missingTables (mem : Nat → Nat → Nat) (dir : Nat) (pages : List Nat) : Nat :=
  ((pages.map (· / 1024)).toFinset.filter fun i => present (mem dir i) = false).card

/-- There is a frame for each page table that is missing for those of the pages that get a frame
themselves. -/
def Room (s : Vm) (dir : Nat) (pages : List Nat) : Prop :=
  missingTables s.mem dir (pages.take s.userPool.free) ≤ s.kernelPool.free

instance (s : Vm) (dir : Nat) (pages : List Nat) : Decidable (Room s dir pages) :=
  inferInstanceAs (Decidable (_ ≤ _))

/-- The first page that gets a frame finds room for its page table. -/
theorem Room.first {rest : List Nat} (h : Room s dir (n :: rest)) (huser : 0 < s.userPool.free) :
    present (s.mem dir (n / 1024)) = true ∨ 0 < s.kernelPool.free := by
  by_cases hpresent : present (s.mem dir (n / 1024)) = true
  · exact .inl hpresent
  · refine .inr (Nat.lt_of_lt_of_le (Finset.card_pos.2 ⟨n / 1024, ?_⟩) h)
    obtain ⟨k, hk⟩ : ∃ k, s.userPool.free = k + 1 := ⟨s.userPool.free - 1, by omega⟩
    simpa [hk] using hpresent

/-- After the first page is mapped, there is room for the others. -/
theorem Room.rest {rest : List Nat} {mid : Vm} (h : Room s dir (n :: rest)) (hmem : mid.mem = s.mem)
    (hkernel : mid.kernelPool = s.kernelPool) (huser : mid.userPool.free + 1 = s.userPool.free)
    (hadded : TableAdded dir (n / 1024) mid last) :
    Room last dir rest := by
  unfold Room missingTables at *
  rw [hadded.userFree]
  rw [← huser, List.take_succ_cons, ← hmem] at h
  generalize hA : ((n :: rest.take mid.userPool.free).map (· / 1024)).toFinset.filter
    (fun i => present (mid.mem dir i) = false) = A at h
  have hsub : ((rest.take mid.userPool.free).map (· / 1024)).toFinset.filter
      (fun i => present (last.mem dir i) = false) ⊆ A.erase (n / 1024) := by
    intro i hi
    rw [Finset.mem_filter] at hi
    have hkept : ∀ k, present (mid.mem dir k) = true ∨ k = n / 1024 → k ≠ i := by
      rintro k hk rfl
      simp [hadded.present k hk] at hi
    rw [Finset.mem_erase, ← hA, Finset.mem_filter]
    refine ⟨fun heq => hkept i (.inr heq) rfl, ?_, ?_⟩
    · simp only [List.map_cons, List.toFinset_cons, Finset.mem_insert]
      exact .inr hi.1
    · by_contra hne
      exact hkept i (.inl (by simpa using hne)) rfl
  have hcard := Finset.card_le_card hsub
  have hfree := hadded.free
  rw [hkernel] at hfree
  by_cases hpresent : present (mid.mem dir (n / 1024)) = true
  · have herase := Finset.card_erase_le (s := A) (a := n / 1024)
    rw [if_pos hpresent] at hfree
    omega
  · have hmemA : n / 1024 ∈ A := by
      rw [← hA]
      simpa using hpresent
    have herase := Finset.card_erase_add_one hmemA
    rw [if_neg hpresent] at hfree
    omega

/-! ## Requests for pages -/

/-- A page of the running process gets a frame, if there is one. -/
theorem Frames.map_user_page (h : Frames strict g s) (rest : List Nat) (hlive : g.live p)
    (hdir : g.dir p = some s.cr3) (hv : v / 4096 = n) (hn : n < 0xc0000)
    (hroom : strict → Room s s.cr3 (n :: rest)) :
    wp any (getAPageWithoutOpvaddrbitmap .user v) s fun r last =>
      Quiet s last ∧ last.cr3 = s.cr3 ∧ ∃ g', Extends g g' ∧ Frames strict g' last ∧
        (strict → Room last s.cr3 rest) ∧
        (r ≠ none → (∃ f, g'.use f = some (.user p n)) ∧
          (strict → ∀ f, g.use f ≠ some (.user p n))) := by
  refine wp_seq (h.palloc_spec .user) ?_
  intro r mid ⟨hnone, hsome⟩
  cases r with
  | none =>
    obtain ⟨rfl, hscan⟩ := hnone rfl
    refine ⟨Std.Refl.refl mid, rfl, g, .refl g, h, fun _ => ?_, by simp⟩
    -- no page gets a frame any more
    have hfree : mid.userPool.free = 0 := (Pool.free_eq_zero_iff _).2 hscan
    simp [Room, missingTables, hfree]
  | some addr =>
    obtain ⟨f, rfl, h1, hgot⟩ := hsome addr rfl
    have hkernel : mid.kernelPool = s.kernelPool := by
      rw [hgot.pool]
      rfl
    have hfree : mid.userPool.free + 1 = s.userPool.free := hgot.free
    refine wp_seq (h1.page_table_add_user hlive (by rwa [hgot.cr3]) hv hn hgot.unused
      hgot.taken fun hs => ?_) ?_
    · rw [hgot.cr3, hgot.mem, hkernel]
      exact (hroom hs).first (by omega)
    · intro _ last ⟨hquiet, hcr3, hadded, hfresh, g', hext, h2, huse⟩
      rw [hgot.cr3] at hadded
      exact ⟨IsTrans.trans _ _ _ hgot.quiet hquiet, hcr3.trans hgot.cr3, g', hext, h2,
        fun hs => (hroom hs).rest hgot.mem hkernel hfree hadded, fun _ => ⟨⟨f, huse⟩, hfresh⟩⟩

/-- A page of the first MB, which the loader mapped, is not mapped again. -/
theorem Frames.page_table_add_low (h : Frames strict g s) {addr : Nat} (hv : v / 4096 = n)
    (hlo : 0xc0000 ≤ n) (hhi : n < 0xc0100) {Q : Unit → Vm → Prop} :
    wp any (pageTableAdd v addr) s Q := by
  have hself := h.is_dir_active.self_mapped
  have hpde : s.mem s.cr3 (pdeIdx v) = entryFor (0x101 * 4096) := by
    have htable : kernelTable n = 0x101 := by
      unfold kernelTable
      omega
    rw [pde_idx_of_page hv (by omega), h.kernel_entry h.is_dir_active hlo (by omega), htable]
  have hpresent : present (s.mem 0x101 (pteIdx v)) = true := by
    rw [pte_idx_of_page hv]
    exact h.low _ (by omega)
  simp [pageTableAdd, wp_load_pde hself, wp_load_pte hself, hpde, hpresent]

/-- A round of the loop of `malloc_page` is a call of `get_a_page_without_opvaddrbitmap`. -/
theorem wp_map_pages_succ {ok : Stop → Prop} {t : PoolType} {cnt : Nat} {Q : Bool → Vm → Prop} :
    wp ok (mapPages t (cnt + 1) v) s Q ↔
      wp ok (getAPageWithoutOpvaddrbitmap t v) s fun r mid =>
        (r = none → Q false mid) ∧
        (r ≠ none → wp ok (mapPages t cnt (v + 4096)) mid Q) := by
  rw [mapPages, getAPageWithoutOpvaddrbitmap, wp_bind, wp_bind]
  unfold wp
  cases palloc t s with
  | stop reason => rfl
  | done r mid =>
    cases r with
    | none => simp
    | some addr =>
      simp only [bind_run]
      cases pageTableAdd v addr mid with
      | stop reason => rfl
      | done _ mid2 => simp

theorem map_pages_user : ∀ (cnt n : Nat) (g : Ghost) (s : Vm), Frames strict g s →
    g.live p → g.dir p = some s.cr3 → n + cnt ≤ 0xc0100 →
    (strict → Room s s.cr3 (List.range' n cnt)) →
    wp any (mapPages .user cnt (n * 4096)) s fun r last =>
      Quiet s last ∧ last.cr3 = s.cr3 ∧ ∃ g', Extends g g' ∧ Frames strict g' last ∧
        (r = true → ∀ i < cnt, n + i < 0xc0000 ∧ (∃ f, g'.use f = some (.user p (n + i))) ∧
          (strict → ∀ f, g.use f ≠ some (.user p (n + i)))) := by
  intro cnt
  induction cnt with
  | zero =>
    intro n g s h _ _ _ _
    exact ⟨Std.Refl.refl s, rfl, g, .refl g, h, by simp⟩
  | succ cnt ih =>
    intro n g s h hlive hdir hn hroom
    rw [wp_map_pages_succ]
    by_cases hlow : 0xc0000 ≤ n
    · -- such a page is never mapped
      refine wp_seq (h.palloc_spec .user) ?_
      intro r mid ⟨hnone, hsome⟩
      cases r with
      | none =>
        obtain ⟨rfl, -⟩ := hnone rfl
        simpa using ⟨Std.Refl.refl mid, g, .refl g, h⟩
      | some addr =>
        obtain ⟨f, rfl, h1, -⟩ := hsome addr rfl
        rw [wp_bind]
        exact h1.page_table_add_low (by omega) hlow (by omega)
    · refine wp_mono (h.map_user_page _ hlive hdir (by omega) (by omega) hroom) ?_
      intro r mid ⟨hquiet, hcr3, g1, hext, h1, hroom1, hdone⟩
      refine ⟨fun _ => ⟨hquiet, hcr3, g1, hext, h1, by simp⟩, fun hr => ?_⟩
      obtain ⟨⟨f, hf⟩, hfresh⟩ := hdone hr
      rw [← Nat.add_one_mul]
      refine wp_mono (ih (n + 1) g1 mid h1 (hext.live ▸ hlive)
        (by rw [hext.dir, hcr3]; exact hdir) (by omega) (by rwa [hcr3])) ?_
      intro r last ⟨hquiet', hcr3', g', hext', h2, hall⟩
      refine ⟨IsTrans.trans _ _ _ hquiet hquiet', hcr3'.trans hcr3, g', hext.trans hext', h2, ?_⟩
      intro hr' i hi
      cases i with
      | zero => exact ⟨by omega, ⟨f, hext'.use f _ hf⟩, hfresh⟩
      | succ i =>
        rw [show n + (i + 1) = n + 1 + i by omega]
        obtain ⟨hlt, hused, hfresh'⟩ := hall hr' i (by omega)
        exact ⟨hlt, hused, fun hs x hx => hfresh' hs x (hext.use x _ hx)⟩

/-- The virtual pages of a process are laid out as `create_user_vaddr_bitmap` does. -/
def UserLayout (task : Task) : Prop :=
  task.userprogVaddr.vaddrStart = userVaddrStart ∧
    task.userprogVaddr.vaddrMap.btmpBytesLen = userMapLen

section

variable (h : Frames strict g s)

include h

/-- The pages of a user request are new pages of the process. -/
theorem Frames.malloc_page_user (hlive : g.live p) (hdir : g.dir p = some s.cr3)
    (htask : s.tasks s.cur = some task) (huser : UserLayout task) (pages : Nat)
    (hroom : strict → ∀ b, bitmapScan task.userprogVaddr.vaddrMap pages = some b →
      Room s s.cr3 (List.range' (0x8048 + b) pages)) :
    wp any (mallocPage .user pages) s fun r last =>
      SameShapes s last ∧ MarksKept (fun _ _ => False) s last ∧ last.cr3 = s.cr3 ∧
      ∃ g', Extends g g' ∧ Frames strict g' last ∧
        ∀ v, r = some v → v % 4096 = 0 ∧ 0x8048 ≤ v / 4096 ∧
          (∀ task', last.tasks s.cur = some task' → ∀ i < pages,
            bitmapScanTest task'.userprogVaddr.vaddrMap (v / 4096 + i - 0x8048) = true) ∧
          ∀ i < pages, v / 4096 + i < 0xc0000 ∧
            (∃ f, g'.use f = some (.user p (v / 4096 + i))) ∧
            (strict → ∀ f, g.use f ≠ some (.user p (v / 4096 + i))) := by
  obtain ⟨hstart, hlen⟩ := huser
  simp only [mallocPage, vaddrGet, wp_bind, wp_assert, wp_running_thread, htask,
    Option.some.injEq, forall_eq', and_any, Bool.and_eq_true, decide_eq_true_eq]
  rintro ⟨hcnt, _⟩
  cases hscan : bitmapScan task.userprogVaddr.vaddrMap pages with
  | none =>
    exact ⟨⟨fun _ => rfl, rfl, rfl, rfl⟩, .of_tasks rfl, rfl, g, .refl g, h, by simp⟩
  | some b =>
    have hend := (bitmap_scan_eq_some _ hcnt hscan).1
    rw [hlen, show 8 * userMapLen = 0xb7fb8 by decide] at hend
    simp only [wp_bind, wp_assert, wp_pure, and_any]
    rintro -
    rw [show task.userprogVaddr.vaddrStart + b * 4096 = (0x8048 + b) * 4096 by
      rw [hstart, userVaddrStart]; omega]
    refine wp_mono (map_pages_user pages (0x8048 + b) g _ (h.congr rfl rfl rfl rfl rfl) hlive
      hdir (by omega)
      fun hs => hroom hs b hscan) ?_
    rintro r last ⟨hquiet, hcr3, g', hext, h1, hdone⟩
    have hshapes : SameShapes s last :=
      (SameShapes.store htask (bitmap_set_range_len _ _ _ _)).trans hquiet.same_tasks.same_shapes
    have hmarks : MarksKept (fun _ _ => False) s last := by
      refine MarksKept.trans (.store htask fun j _ hbit => ?_) (.of_tasks hquiet.tasks)
      rw [scan_test_set_range]
      split
      · rfl
      · exact hbit
    cases r with
    | false => exact ⟨hshapes, hmarks, hcr3, g', hext, h1, by simp⟩
    | true =>
      refine ⟨hshapes, hmarks, hcr3, g', hext, h1, ?_⟩
      rintro _ ⟨⟩
      rw [Nat.mul_div_cancel _ (by decide)]
      refine ⟨Nat.mul_mod_left _ _, by omega, fun task' htask' i hi => ?_, hdone rfl⟩
      rw [hquiet.tasks] at htask'
      obtain rfl : _ = task' := by simpa using htask'
      rw [scan_test_set_range, if_pos (by omega)]

theorem Frames.get_a_page_user (hlive : g.live p) (hdir : g.dir p = some s.cr3)
    (htask : s.tasks s.cur = some task) (huser : UserLayout task) (hv : v < 2 ^ 32)
    (hroom : strict → Room s s.cr3 [v / 4096]) :
    wp any (getAPage .user v) s fun _ last =>
      SameShapes s last ∧ MarksKept (fun _ _ => False) s last ∧ last.cr3 = s.cr3 ∧
      ∃ g', Extends g g' ∧ Frames strict g' last := by
  obtain ⟨hstart, hlen⟩ := huser
  simp only [getAPage, wp_bind, wp_running_thread, htask, Option.some.injEq, forall_eq',
    wp_ite, wp_assert, wp_access, wp_state, wp_store_task, and_any, implies_true,
    and_true, wp_halt, reduceCtorEq, and_false, false_implies]
  intro _ _ hlt
  -- the index is inside the bitmap, so the page is a user page
  have hpage : v / 4096 < 0xc0000 := by
    have hmap : 8 * userMapLen = 0xb7fb8 := by decide
    simp only [decide_eq_true_eq, hstart, userVaddrStart] at hlt
    omega
  rw [← wp_bind]
  show wp any (getAPageWithoutOpvaddrbitmap .user v) _ _
  have h1 : ∀ tasks, Frames strict g { s with tasks := tasks } :=
    fun _ => h.congr rfl rfl rfl rfl rfl
  refine wp_mono ((h1 _).map_user_page [] hlive hdir rfl hpage hroom) ?_
  rintro _ last ⟨hquiet, hcr3, g', hext, h2, _⟩
  refine ⟨(SameShapes.store htask (bitmap_set_len _ _ _)).trans hquiet.same_tasks.same_shapes,
    MarksKept.trans (.store htask fun j _ hbit => ?_) (.of_tasks hquiet.tasks), hcr3, g', hext, h2⟩
  rw [scan_test_bitmap_set]
  split
  · rfl
  · exact hbit

/-- A kernel page gets a frame, if there is one. A page that somebody holds is not mapped again. -/
theorem Frames.map_kernel_page (hv : v / 4096 = n) (hlo : 0xc0000 ≤ n) (hhi : n < 0xffc00) :
    wp any (getAPageWithoutOpvaddrbitmap .kernel v) s fun _ last =>
      KernelSide s last ∧ ∃ g', Extends g g' ∧ Frames strict g' last := by
  refine wp_seq (h.palloc_spec .kernel) ?_
  intro r mid ⟨hnone, hsome⟩
  cases r with
  | none =>
    obtain ⟨rfl, -⟩ := hnone rfl
    exact ⟨.refl mid, g, .refl g, h⟩
  | some addr =>
    obtain ⟨f, rfl, h1, hgot⟩ := hsome addr rfl
    rw [wp_bind]
    by_cases hlow : n < 0xc0100
    · exact h1.page_table_add_low hv hlo hlow
    by_cases howner : ∀ o, g.owner n = some o → o = .reserved
    · refine wp_mono (h1.page_table_add_kernel hv ⟨by omega, hhi⟩ howner hgot.unused
        hgot.taken) ?_
      intro _ last ⟨hside, _, g', hext, h2, _⟩
      exact ⟨hgot.kernel_side.trans hside, g', hext, h2⟩
    · push Not at howner
      obtain ⟨o, ho, hne⟩ := howner
      obtain ⟨-, -, hmapped⟩ := h1.owned n o ho
      obtain ⟨x, ⟨hheap, hpresent, -⟩, -⟩ := hmapped hne
      have hself := h1.is_dir_active.self_mapped
      simp [pageTableAdd, wp_load_pde hself, wp_load_pte hself, h1.active_kernel_entry hv hheap,
        pte_idx_of_page hv, hpresent]

theorem Frames.mark_page (b : Nat) : Frames strict g { s with
      kernelVaddr := { s.kernelVaddr with
        vaddrMap := bitmapSet s.kernelVaddr.vaddrMap b true } } := by
  refine h.of_owner rfl rfl (h.layout.mark b 1 true) rfl h.taken ?_ fun _ _ ho _ => ho
  intro m o ho
  obtain ⟨hheap, hbit, hmapped⟩ := h.owned m o ho
  refine ⟨hheap, ?_, hmapped⟩
  rw [scan_test_bitmap_set]
  split
  · rfl
  · exact hbit

theorem Frames.get_a_page_kernel (hv : v < 2 ^ 32) :
    wp any (getAPage .kernel v) s fun _ last =>
      SameTasks s last ∧ last.cr3 = s.cr3 ∧ ∃ g', Extends g g' ∧ Frames strict g' last := by
  have hend := h.layout.heapEnd
  have hstart := h.layout.heapStart
  simp only [getAPage, wp_bind, wp_running_thread, wp_ite, wp_assert, wp_access, wp_update,
    and_any, wp_halt, reduceCtorEq,
    and_false, false_implies, not_false_eq_true, forall_const, true_and]
  intro task htask _ _ hlt
  have hpage : 0xc0100 ≤ v / 4096 ∧ v / 4096 < 0xffc00 := by
    simp only [decide_eq_true_eq] at hlt
    omega
  rw [← wp_bind]
  show wp any (getAPageWithoutOpvaddrbitmap .kernel v) _ _
  refine wp_mono ((h.mark_page _).map_kernel_page rfl (by omega) hpage.2) ?_
  rintro _ last ⟨hside, g', hext, h1⟩
  exact ⟨hside.quiet.same_tasks.after ⟨rfl, rfl, rfl, rfl, rfl, rfl⟩, hside.cr3, g', hext, h1⟩

end

end LosKernel.Mm
