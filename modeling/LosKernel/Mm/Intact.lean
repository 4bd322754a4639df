import LosKernel.Mm.PageOps

/-!
# Intact page tables

`Intact D s` says what keeps mappings as they are when other pages are mapped: `D` are the page
directories, their kernel halves are the same, and a page table of a user half belongs to one
entry of one directory. Under it `page_table_add` and a run of pages (`map_pages_all`) change no
other mapping, as long as there are frames. A page table without a frame is put at frame 0; one is
harmless, the second is not.
-/

namespace LosKernel.Mm

open Prog

variable {n f cnt d i : Nat} {t t' : PoolType} {ok : Stop → Prop} {s mid last : Vm} {D : Set Nat}

/-! ## Free frames -/

/-- Frame `f` belongs to the pool and its bit is clear. -/
def Pool.Idle (pool : Pool) (f : Nat) : Prop :=
  ∃ b < 8 * pool.poolMap.btmpBytesLen, f * 4096 = pool.phyAddrStart + b * 4096 ∧
    bitmapScanTest pool.poolMap b = false

/-- Frame `f` is free in one of the pools. -/
def Vm.Idle (s : Vm) (f : Nat) : Prop := ∃ t, (s.pool t).Idle f

/-- Frame `f` was taken from the pool `t`; nothing else changed. -/
structure Popped (t : PoolType) (f : Nat) (s last : Vm) : Prop where
  layout : Layout last
  rest : last = s.setPoolMap t (last.pool t).poolMap
  free : (last.pool t).free + 1 = (s.pool t).free
  idle : ∀ t' x, (last.pool t').Idle x → (s.pool t').Idle x ∧ x ≠ f

section

variable (h : Popped t f s last)

include h

theorem Popped.mem : last.mem = s.mem := by
  rw [h.rest, mem_set_pool_map]

theorem Popped.cr3 : last.cr3 = s.cr3 := by
  rw [h.rest, cr3_set_pool_map]

theorem Popped.other (ht : t' ≠ t) : last.pool t' = s.pool t' := by
  rw [h.rest, pool_set_pool_map_ne s _ ht]

theorem Popped.not_idle : ¬last.Idle f :=
  fun ⟨t', hidle⟩ => (h.idle t' f hidle).2 rfl

end

theorem Layout.place_unique (h : Layout s) {b b' : Nat}
    (hb : b < 8 * (s.pool t).poolMap.btmpBytesLen) (hb' : b' < 8 * (s.pool t').poolMap.btmpBytesLen)
    (haddr : (s.pool t).phyAddrStart + b * 4096 = (s.pool t').phyAddrStart + b' * 4096) :
    t = t' ∧ b = b' := by
  have hkernel := h.kernelStart
  have hapart := h.poolsApart
  cases t <;> cases t' <;> simp only [Vm.pool] at hb hb' haddr <;>
    refine ⟨?_, by omega⟩ <;> first | rfl | omega

/-- Page `n` is one of the pages that directory `d` is used for. The user half of the directory of
the kernel is not: the loader left the page table of the first kernel pages in it. -/
def Covers (d n : Nat) : Prop := n < 0xffc00 ∧ (d = kernelDir → 0xc0000 ≤ n)

/-- The page tables of the directories `D`. -/
structure Intact (D : Set Nat) (s : Vm) : Prop where
  layout : Layout s
  active : s.cr3 ∈ D
  self : SelfMapped s.mem s.cr3
  dirs : ∀ d ∈ D, (d = kernelDir ∨ 0x200 ≤ d) ∧ ¬s.Idle d
  kernel : ∀ d ∈ D, ∀ i, 0x300 ≤ i → i < 0x3ff →
    s.mem d i = entryFor ((0x101 + (i - 0x300)) * 4096)
  user : ∀ d ∈ D, d ≠ kernelDir → ∀ i x, TableAt s.mem d i x →
    (x = 0 ∨ 0x200 ≤ x) ∧ x ∉ D ∧ ¬s.Idle x
  apart : ∀ d ∈ D, ∀ d' ∈ D, d ≠ kernelDir → d' ≠ kernelDir → ∀ i i' x,
    TableAt s.mem d i x → TableAt s.mem d' i' x → d = d' ∧ i = i'

/-- No page table is at frame 0. -/
def NoTableAtZero (D : Set Nat) (s : Vm) : Prop :=
  ∀ d ∈ D, d ≠ kernelDir → ∀ i, ¬TableAt s.mem d i 0

/-- Words outside of the directories do not matter. -/
theorem Intact.write (h : Intact D s) {mem : Nat → Nat → Nat} (hdirs : ∀ d ∈ D, mem d = s.mem d) :
    Intact D { s with mem := mem } where
  layout := h.layout.of_mem mem
  active := h.active
  self := by
    simp only [SelfMapped, hdirs _ h.active]
    exact h.self
  dirs := h.dirs
  kernel := fun d hd => by
    simp only [hdirs d hd]
    exact h.kernel d hd
  user := fun d hd hne i x hx => by
    simp only [TableAt, hdirs d hd] at hx
    exact h.user d hd hne i x hx
  apart := fun d hd d' hd' hne hne' i i' x hx hx' => by
    simp only [TableAt, hdirs d hd] at hx
    simp only [TableAt, hdirs d' hd'] at hx'
    exact h.apart d hd d' hd' hne hne' i i' x hx hx'

theorem walk_page {mem : Nat → Nat → Nat} (hn : n < 0xffc00) : walk mem d (n * 4096) =
      if present (mem d (n / 1024)) then
        if present (mem (frameOf (mem d (n / 1024))) (n % 1024)) then
          some (frameOf (mem (frameOf (mem d (n / 1024))) (n % 1024)))
        else none
      else none := by
  have hv : n * 4096 / 4096 = n := by omega
  simp only [walk, pde_idx_of_page hv (by omega), pte_idx_of_page hv]

theorem Intact.kernel_page (h : Intact D s) (hd : d ∈ D) (hlo : 0xc0000 ≤ n) (hhi : n < 0xffc00) :
    s.mem d (n / 1024) = entryFor (kernelTable n * 4096) := by
  rw [h.kernel d hd _ (by omega) (by omega)]
  rfl

theorem frame_of_entry_for_frame (x : Nat) : frameOf (entryFor (x * 4096)) = x := by
  rw [frame_of_entry_for, Nat.mul_div_cancel _ (by decide)]

/-- The page table of a covered page is not a directory. -/
theorem Intact.table_not_dir (h : Intact D s) (hd : d ∈ D) (hn : Covers d n)
    (hpresent : present (s.mem d (n / 1024)) = true) : frameOf (s.mem d (n / 1024)) ∉ D := by
  intro hmem
  by_cases hlo : 0xc0000 ≤ n
  · rw [h.kernel_page hd hlo hn.1, frame_of_entry_for_frame] at hmem
    have hlt := kernel_table_lt hn.1
    have hge := kernel_table_ge n
    rcases (h.dirs _ hmem).1 with heq | hpool
    · simp only [kernelDir] at heq
      omega
    · omega
  · have hne : d ≠ kernelDir := fun heq => hlo (hn.2 heq)
    exact (h.user d hd hne _ _ ⟨by omega, hpresent, rfl⟩).2.1 hmem

/-- Two covered pages find their entries in one page table exactly when they lie in the same 4 MB,
of one address space or of the kernel. -/
theorem Intact.same_table (h : Intact D s) {d' m : Nat} (hd : d ∈ D) (hd' : d' ∈ D)
    (hn : Covers d n) (hm : Covers d' m) (hpresent : present (s.mem d (n / 1024)) = true)
    (hpresent' : present (s.mem d' (m / 1024)) = true)
    (hsame : frameOf (s.mem d' (m / 1024)) = frameOf (s.mem d (n / 1024))) :
    m / 1024 = n / 1024 ∧ (d' = d ∨ 0xc0000 ≤ n) := by
  have hlow : ∀ {d k}, d ∈ D → Covers d k → k < 0xc0000 → present (s.mem d (k / 1024)) = true →
      d ≠ kernelDir ∧ TableAt s.mem d (k / 1024) (frameOf (s.mem d (k / 1024))) :=
    fun hd hk hlo hp => ⟨fun heq => by have := hk.2 heq; omega, by omega, hp, rfl⟩
  by_cases hlo : 0xc0000 ≤ n
  · rw [h.kernel_page hd hlo hn.1, frame_of_entry_for_frame] at hsame
    have hlt := kernel_table_lt hn.1
    have hge := kernel_table_ge n
    by_cases hlo' : 0xc0000 ≤ m
    · rw [h.kernel_page hd' hlo' hm.1, frame_of_entry_for_frame] at hsame
      unfold kernelTable at hsame
      exact ⟨by omega, .inr hlo⟩
    · obtain ⟨hne, htable⟩ := hlow hd' hm (by omega) hpresent'
      have := (h.user d' hd' hne _ _ htable).1
      omega
  · obtain ⟨hne, htable⟩ := hlow hd hn (by omega) hpresent
    by_cases hlo' : 0xc0000 ≤ m
    · rw [h.kernel_page hd' hlo' hm.1, frame_of_entry_for_frame] at hsame
      have := (h.user d hd hne _ _ htable).1
      have hlt := kernel_table_lt hm.1
      have hge := kernel_table_ge m
      omega
    · obtain ⟨hne', htable'⟩ := hlow hd' hm (by omega) hpresent'
      rw [hsame] at htable'
      obtain ⟨heq, hidx⟩ := h.apart d' hd' d hd hne' hne _ _ _ htable' htable
      exact ⟨hidx, .inl heq⟩

/-! ## Mapping one page -/

/-- The active directory maps page `n`; a kernel page is mapped by all directories. -/
def Reaches (s : Vm) (d n : Nat) : Prop := d = s.cr3 ∨ 0xc0000 ≤ n

theorem Intact.set_entry (h : Intact D s) (hn : Covers s.cr3 n)
    (hpresent : present (s.mem s.cr3 (n / 1024)) = true) (f : Nat) {mem : Nat → Nat → Nat}
    (hmem : mem = setWord s.mem (frameOf (s.mem s.cr3 (n / 1024))) (n % 1024)
      (entryFor (f * 4096))) :
    (∀ d ∈ D, mem d = s.mem d) ∧
    ∀ d ∈ D, ∀ m, Covers d m → (m = n ∧ Reaches s d n → walk mem d (m * 4096) = some f) ∧
      (¬(m = n ∧ Reaches s d n) → walk mem d (m * 4096) = walk s.mem d (m * 4096)) := by
  have hdirs : ∀ d ∈ D, mem d = s.mem d := by
    intro d hd
    rw [hmem]
    refine set_word_frame_ne _ _ _ fun heq => ?_
    exact h.table_not_dir h.active hn hpresent (heq ▸ hd)
  refine ⟨hdirs, fun d hd m hm => ⟨fun ⟨hmn, hreach⟩ => ?_, fun hother => ?_⟩⟩
  · subst hmn
    have hsame : s.mem d (m / 1024) = s.mem s.cr3 (m / 1024) := by
      rcases hreach with rfl | hlo
      · rfl
      · rw [h.kernel_page hd hlo hm.1, h.kernel_page h.active hlo hm.1]
    rw [walk_page hm.1, hdirs d hd, hsame, hpresent, hmem]
    simp
  · rw [walk_page hm.1, walk_page hm.1, hdirs d hd]
    by_cases hp : present (s.mem d (m / 1024)) = true
    · have hword : mem (frameOf (s.mem d (m / 1024))) (m % 1024) =
          s.mem (frameOf (s.mem d (m / 1024))) (m % 1024) := by
        rw [hmem, set_word_apply, if_neg]
        intro ⟨htable, hidx⟩
        obtain ⟨hdiv, hreach⟩ := h.same_table h.active hd hn hm hpresent hp htable
        exact hother ⟨by omega, hreach⟩
      rw [hword]
    · simp only [hp, if_false, Bool.false_eq_true]

/-- The words of a frame when a page table is installed at another. -/
theorem with_table_row {t : Nat} (hdt : d ≠ t) (k : Nat) : (withTable s i t).mem d k =
    if d = s.cr3 ∧ k = i then entryFor (t * 4096) else s.mem d k := by
  simp only [withTable, Function.update_of_ne hdt, set_word_apply]

/-- An empty page table is installed in the user half of the active directory. -/
theorem Intact.with_table (h : Intact D s) {t : Nat} (hi : i < 0x300)
    (habsent : present (s.mem s.cr3 i) = false) (hplace : t = 0 ∨ 0x200 ≤ t) (htD : t ∉ D)
    (hbusy : ¬s.Idle t) (hfresh : ∀ d ∈ D, d ≠ kernelDir → ∀ k, ¬TableAt s.mem d k t) :
    Intact D (withTable s i t) ∧
    ∀ d ∈ D, ∀ m, Covers d m →
      walk (withTable s i t).mem d (m * 4096) = walk s.mem d (m * 4096) := by
  have hrow : ∀ d ∈ D, ∀ k, (withTable s i t).mem d k =
      if d = s.cr3 ∧ k = i then entryFor (t * 4096) else s.mem d k :=
    fun d hd => with_table_row fun heq => htD (heq ▸ hd)
  have htable : ∀ d ∈ D, ∀ k x, TableAt (withTable s i t).mem d k x →
      (d = s.cr3 ∧ k = i ∧ x = t) ∨ TableAt s.mem d k x := by
    intro d hd k x hx
    by_cases hnew : d = s.cr3 ∧ k = i
    · refine .inl ⟨hnew.1, hnew.2, ?_⟩
      rw [← hx.2.2, hrow d hd, if_pos hnew, frame_of_entry_for_frame]
    · simp only [TableAt, hrow d hd, if_neg hnew] at hx
      exact .inr hx
  refine ⟨⟨h.layout.of_mem _, h.active, ?_, h.dirs, ?_, ?_, ?_⟩, ?_⟩
  · show SelfMapped (withTable s i t).mem s.cr3
    rw [SelfMapped, hrow _ h.active, if_neg (by omega)]
    exact h.self
  · intro d hd k hlo hhi
    rw [hrow d hd, if_neg (by omega)]
    exact h.kernel d hd k hlo hhi
  · intro d hd hdne k x hx
    rcases htable d hd k x hx with ⟨-, -, rfl⟩ | hold
    · exact ⟨hplace, htD, hbusy⟩
    · exact h.user d hd hdne k x hold
  · intro d hd d' hd' hdne hdne' k k' x hx hx'
    rcases htable d hd k x hx with ⟨rfl, rfl, rfl⟩ | hold
    · rcases htable d' hd' k' x hx' with ⟨rfl, rfl, -⟩ | hold'
      · exact ⟨rfl, rfl⟩
      · exact absurd hold' (hfresh d' hd' hdne' k')
    · rcases htable d' hd' k' x hx' with ⟨rfl, rfl, rfl⟩ | hold'
      · exact absurd hold (hfresh d hd hdne k)
      · exact h.apart d hd d' hd' hdne hdne' k k' x hold hold'
  · intro d hd m hm
    rw [walk_page hm.1, walk_page hm.1, hrow d hd]
    by_cases hnew : d = s.cr3 ∧ m / 1024 = i
    · -- the page table is empty, and before there was none
      rw [if_pos hnew, hnew.1, hnew.2, habsent]
      simp [withTable, present]
    · rw [if_neg hnew]
      by_cases hp : present (s.mem d (m / 1024)) = true
      · have hnott : frameOf (s.mem d (m / 1024)) ≠ t := by
          by_cases hlo : 0xc0000 ≤ m
          · rw [h.kernel_page hd hlo hm.1, frame_of_entry_for_frame]
            have hlt := kernel_table_lt hm.1
            have hge := kernel_table_ge m
            omega
          · intro heq
            refine hfresh d hd (fun hk => hlo (hm.2 hk)) (m / 1024) ⟨by omega, hp, heq⟩
        have hnotdir : frameOf (s.mem d (m / 1024)) ≠ s.cr3 :=
          fun heq => h.table_not_dir hd hm hp (heq ▸ h.active)
        simp only [withTable, Function.update_of_ne hnott, set_word_frame_ne _ _ _ hnotdir]
      · simp only [hp, if_false, Bool.false_eq_true]

/-- Page `n` was mapped to frame `f`. Where a page table was missing, the pool of the kernel gave a
frame for it, if it had one. -/
structure PageMapped (D : Set Nat) (n f : Nat) (s last : Vm) : Prop where
  cr3 : last.cr3 = s.cr3
  userPool : last.userPool = s.userPool
  idle : ∀ t x, (last.pool t).Idle x → (s.pool t).Idle x
  new : ∀ d ∈ D, Covers d n → Reaches s d n → walk last.mem d (n * 4096) = some f
  old : ∀ d ∈ D, ∀ m, Covers d m → ¬(m = n ∧ Reaches s d n) →
    walk last.mem d (m * 4096) = walk s.mem d (m * 4096)
  tables : ∀ i, present (last.mem s.cr3 i) = true ↔ present (s.mem s.cr3 i) = true ∨ i = n / 1024
  free : s.kernelPool.free ≤
    last.kernelPool.free + if present (s.mem s.cr3 (n / 1024)) = true then 0 else 1
  zero : present (s.mem s.cr3 (n / 1024)) = true ∨ 0 < s.kernelPool.free →
    NoTableAtZero D s → NoTableAtZero D last

/-- The state in which the entry of page `n` refers to frame `f`. -/
def withEntry (s : Vm) (n f : Nat) : Vm :=
  { s with
    mem := setWord s.mem (frameOf (s.mem s.cr3 (n / 1024))) (n % 1024) (entryFor (f * 4096)) }

theorem Intact.fill (h : Intact D s) (hn : Covers s.cr3 n)
    (hpresent : present (s.mem s.cr3 (n / 1024)) = true) (f : Nat) :
    Intact D (withEntry s n f) ∧ PageMapped D n f s (withEntry s n f) := by
  obtain ⟨hdirs, hwalk⟩ := h.set_entry hn hpresent f rfl
  refine ⟨h.write hdirs, rfl, rfl, fun _ _ => id, fun d hd hc hr => (hwalk d hd n hc).1 ⟨rfl, hr⟩,
    fun d hd m hm => (hwalk d hd m hm).2, fun i => ?_, by simp [withEntry],
    fun _ hz => ?_⟩
  · simp only [withEntry, hdirs _ h.active]
    refine ⟨.inl, fun hi => ?_⟩
    rcases hi with hold | rfl
    · exact hold
    · exact hpresent
  · intro d hd hne i ht
    simp only [TableAt, withEntry, hdirs d hd] at ht
    exact hz d hd hne i ht

/-- The entries of the directory that `cnt` pages from `n` on need. -/
def tablesOf (n cnt : Nat) : Finset Nat := (Finset.range cnt).image fun j => (n + j) / 1024

/-- The page tables that are missing for `cnt` pages from `n` on. -/
def missing (s : Vm) (n cnt : Nat) : Finset Nat :=
  (tablesOf n cnt).filter fun i => present (s.mem s.cr3 i) = false

theorem tables_of_succ (n cnt : Nat) :
    tablesOf n (cnt + 1) = insert (n / 1024) (tablesOf (n + 1) cnt) := by
  ext i
  simp only [tablesOf, Finset.mem_insert, Finset.mem_image, Finset.mem_range]
  constructor
  · intro ⟨j, hj, hi⟩
    cases j with
    | zero => exact .inl hi.symm
    | succ j => exact .inr ⟨j, by omega, by rw [← hi]; congr 1; omega⟩
  · intro hi
    rcases hi with rfl | ⟨j, hj, hi⟩
    · exact ⟨0, by omega, rfl⟩
    · exact ⟨j + 1, by omega, by rw [← hi]; congr 1; omega⟩

/-- What is missing for the rest of a run after its first page was mapped. -/
theorem PageMapped.missing_eq (h : PageMapped D n f s last) :
    missing last (n + 1) cnt = (missing s n (cnt + 1)).erase (n / 1024) := by
  ext i
  have htables : present (last.mem last.cr3 i) = false ↔
      present (s.mem s.cr3 i) = false ∧ i ≠ n / 1024 := by
    rw [h.cr3, ← Bool.not_eq_true, h.tables i, not_or, Bool.not_eq_true]
  simp only [missing, Finset.mem_filter, Finset.mem_erase, tables_of_succ, Finset.mem_insert]
  tauto

/-- Pages `n` to `n + cnt - 1` were mapped to frames of the pool `t` that were free, each to its
own, and no other page. -/
structure RunAdded (D : Set Nat) (t : PoolType) (n cnt : Nat) (s last : Vm) : Prop where
  cr3 : last.cr3 = s.cr3
  new : ∃ frames : List Nat, frames.length = cnt ∧ frames.Nodup ∧
    (∀ f ∈ frames, (s.pool t).Idle f) ∧
    ∀ j f, frames[j]? = some f → ∀ d ∈ D, Covers d (n + j) → Reaches s d (n + j) →
      walk last.mem d ((n + j) * 4096) = some f
  old : ∀ d ∈ D, ∀ m, Covers d m → ¬(n ≤ m ∧ m < n + cnt ∧ Reaches s d m) →
    walk last.mem d (m * 4096) = walk s.mem d (m * 4096)

theorem RunAdded.cons {next : Vm} (hidle : (s.pool t).Idle f) (hpop : Popped t f s mid)
    (hpage : PageMapped D n f mid next) (hrun : RunAdded D t (n + 1) cnt next last) :
    RunAdded D t n (cnt + 1) s last := by
  have hcr3 : next.cr3 = s.cr3 := hpage.cr3.trans hpop.cr3
  have hreach : ∀ d m, (Reaches next d m ↔ Reaches s d m) ∧ (Reaches mid d m ↔ Reaches s d m) := by
    intro d m
    simp only [Reaches, hcr3, hpop.cr3, and_self]
  obtain ⟨frames, hlen, hnodup, hfree, hmapped⟩ := hrun.new
  have hrest : ∀ x ∈ frames, (s.pool t).Idle x ∧ x ≠ f :=
    fun x hx => hpop.idle t x (hpage.idle t x (hfree x hx))
  refine ⟨hrun.cr3.trans hcr3, ⟨f :: frames, by simp [hlen], ?_, ?_, ?_⟩, ?_⟩
  · exact List.nodup_cons.2 ⟨fun hmem => (hrest f hmem).2 rfl, hnodup⟩
  · exact List.forall_mem_cons.2 ⟨hidle, fun x hx => (hrest x hx).1⟩
  · intro j x hx d hd hc hr
    cases j with
    | zero =>
      obtain rfl : f = x := by simpa using hx
      rw [hrun.old d hd (n + 0) hc (by omega)]
      exact hpage.new d hd hc ((hreach d n).2.2 hr)
    | succ j =>
      rw [show n + (j + 1) = n + 1 + j by omega] at hc hr ⊢
      exact hmapped j x (by simpa using hx) d hd hc ((hreach d _).1.2 hr)
  · intro d hd m hm hother
    rw [hrun.old d hd m hm (fun ⟨hlo, hhi, hr⟩ => hother ⟨by omega, by omega, (hreach d m).1.1 hr⟩),
      hpage.old d hd m hm (fun ⟨hmn, hr⟩ => hother ⟨by omega, by omega, ?_⟩), hpop.mem]
    rw [hmn]
    exact (hreach d n).2.1 hr

/-- There are frames for the page tables that are missing, except for one for which there is frame
0. -/
def TablesFit (D : Set Nat) (s : Vm) (n cnt : Nat) : Prop :=
  (missing s n cnt).card ≤ s.kernelPool.free ∨
    NoTableAtZero D s ∧ (missing s n cnt).card ≤ s.kernelPool.free + 1

theorem mem_missing_first (s : Vm) (n cnt : Nat) :
    n / 1024 ∈ missing s n (cnt + 1) ↔ ¬present (s.mem s.cr3 (n / 1024)) = true := by
  simp [missing, tables_of_succ]

/-- There is room for the page table of the first page. -/
theorem TablesFit.first (h : TablesFit D s n (cnt + 1)) :
    present (s.mem s.cr3 (n / 1024)) = true ∨ 0 < s.kernelPool.free ∨ NoTableAtZero D s := by
  refine or_iff_not_imp_left.2 fun habsent => ?_
  have hpos := Finset.card_pos.2 ⟨_, (mem_missing_first s n cnt).2 habsent⟩
  rcases h with hroom | ⟨hzero, -⟩
  · exact .inl (by omega)
  · exact .inr hzero

theorem TablesFit.rest (h : TablesFit D s n (cnt + 1)) (hpage : PageMapped D n f s last) :
    TablesFit D last (n + 1) cnt := by
  have hfree := hpage.free
  rw [TablesFit, hpage.missing_eq]
  by_cases hpresent : present (s.mem s.cr3 (n / 1024)) = true
  · rw [Finset.erase_eq_of_notMem (fun hmem => (mem_missing_first s n cnt).1 hmem hpresent)]
    rw [if_pos hpresent] at hfree
    rcases h with hroom | ⟨hzero, hroom⟩
    · exact .inl (by omega)
    · exact .inr ⟨hpage.zero (.inl hpresent) hzero, by omega⟩
  · have hmem := (mem_missing_first s n cnt).2 hpresent
    rw [Finset.card_erase_of_mem hmem]
    rw [if_neg hpresent] at hfree
    rcases h with hroom | ⟨hzero, hroom⟩
    · exact .inl (by omega)
    · rcases Nat.eq_zero_or_pos s.kernelPool.free with hempty | hsome
      · exact .inl (by omega)
      · exact .inr ⟨hpage.zero (.inr hsome) hzero, by omega⟩

end LosKernel.Mm
