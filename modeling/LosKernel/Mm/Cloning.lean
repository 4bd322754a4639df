import LosKernel.Mm.Progress

/-!
# What a fork copies

The contents of the memory in the steps of `copy_process`: the page of the control block, which
holds the kernel stack, and the user pages, which go through a buffer. Frames that are in use are
written only where they belong to the child or to the buffer.
-/

namespace LosKernel.Mm

open Prog hiding update
open Function (update update_of_ne update_self)

variable {n x q dir f p y m buf t v d : Nat} {mem : Nat → Nat → Nat} {parent child : Task}
  {ok : Stop → Prop} {rest : List Nat} {Q : Unit → Vm → Prop} {strict : Prop} {g : Ghost}
  {s last : Vm}

/-! ## The control block -/

theorem Mapped.inj (hx : Mapped g mem n x) (hy : Mapped g mem n y) : x = y :=
  hx.1.2.2.symm.trans hy.1.2.2

theorem Mapped.ne {mem' : Nat → Nat → Nat} (hx : Mapped g mem n x) (hy : Mapped g mem' m y)
    (hne : n ≠ m) : x ≠ y := by
  rintro rfl
  exact hne (by simpa [hx.2] using hy.2)

/-- `memcpy` of mapped kernel pages writes to the frames of the target only. -/
theorem copy_pages_returns : ∀ (cnt n m : Nat) (s : Vm), Frames strict g s →
    (∀ i < cnt, Freeable g (n + i)) → (∀ i < cnt, ∃ y, Mapped g s.mem (m + i) y) →
    (∀ i < cnt, ∀ j < cnt, n + i ≠ m + j) →
    wp never (copyPages cnt (n * 4096) (m * 4096)) s fun _ last =>
      (∀ x, (∀ i < cnt, ¬Mapped g s.mem (n + i) x) → last.mem x = s.mem x) ∧
      ∀ i < cnt, ∀ x y, Mapped g s.mem (n + i) x → Mapped g s.mem (m + i) y →
        last.mem x = s.mem y := by
  intro cnt
  induction cnt with
  | zero => exact fun _ _ _ _ _ _ _ => ⟨fun _ _ => rfl, by simp⟩
  | succ cnt ih =>
    intro n m s h hpages hsrc hapart
    obtain ⟨o, ho, hmapped, hdir⟩ := hpages 0 (by omega)
    obtain ⟨x, hx⟩ := (h.owned _ o ho).2.2 hmapped
    obtain ⟨y, hy⟩ := hsrc 0 (by omega)
    rw [Nat.add_zero] at ho hx hy
    have hplain := h.plain_mapped hx fun p hp => hdir p (by simpa [ho] using hp)
    rw [copyPages, wp_bind, wp_copy_page (h.walk_mapped (by omega) hy.1)
      (h.walk_mapped (by omega) hx.1), ← Nat.add_one_mul,
      show m * 4096 + 4096 = (m + 1) * 4096 by omega]
    have hnext : ∀ k i, k + 1 + i = k + (i + 1) := fun _ _ => by omega
    refine wp_mono (ih (n + 1) (m + 1) _ (h.write_page hplain _) ?_ ?_ ?_) ?_
    · intro i hi
      rw [hnext]
      exact hpages (i + 1) (by omega)
    · intro i hi
      rw [hnext]
      obtain ⟨z, hz⟩ := hsrc (i + 1) (by omega)
      exact ⟨z, hz.write_page hplain.pool _⟩
    · intro i hi j hj
      rw [hnext, hnext]
      exact hapart (i + 1) (by omega) (j + 1) (by omega)
    · intro _ last hlast
      obtain ⟨hkept, hcopied⟩ := hlast
      simp only [mapped_write_page_iff hplain.pool, hnext] at hkept hcopied
      refine ⟨fun z hz => ?_, fun i hi x' y' hx' hy' => ?_⟩
      · have hzx : z ≠ x := by
          rintro rfl
          exact hz 0 (by omega) hx
        rw [hkept z fun i hi => hz (i + 1) (by omega), update_of_ne hzx]
      · cases i with
        | zero =>
          obtain rfl := hx.inj hx'
          obtain rfl := hy.inj hy'
          rw [hkept x fun i hi hmap => hx.ne hmap (by omega) rfl, update_self]
        | succ i =>
          have hyx : y' ≠ x := hy'.ne hx (hapart 0 (by omega) (i + 1) hi).symm
          rw [hcopied i (by omega) x' y' hx' hy', update_of_ne hyx]

/-- What `copy_pcb_vaddrbitmap_stack0` does when it succeeds. The page of the child is a copy of
that of the parent, and so is the bitmap of its virtual pages. -/
structure PcbCopied (strict : Prop) (g : Ghost) (s : Vm) (child xc xp : Nat) (parent task : Task)
    (g' : Ghost) (last : Vm) : Prop where
  grown : Grown strict g s g' last
  served : Served g s g' last bitmapPgCnt task.bitsAddr (.bits child)
  unmapped : Unmapped last
  kept : UsedKept (fun f _ => f = xc) g s last
  maps : MapsKept g s last
  pcb : last.mem xc = s.mem xp
  bitmap : ∀ i < bitmapPgCnt, ∀ x y, KernelMap last.mem (task.bitsAddr / 4096 + i) x →
    Mapped g s.mem (parent.bitsAddr / 4096 + i) y → last.mem x = s.mem y
  block : ∃ bits, task = childBlock parent (incPid s.nextPid) bits

/-- `copy_pcb_vaddrbitmap_stack0` succeeds when there are frames and virtual pages. -/
theorem Frames.copy_pcb_returns (h : Frames strict g s) (hunmapped : Unmapped s) {child xc xp : Nat}
    (hpcb : g.owner (child / 4096) = some (.pcb child)) (hchild : Mapped g s.mem (child / 4096) xc)
    (hcur : walk s.mem s.cr3 s.cur = some xp) (haligned : parent.bitsAddr % 4096 = 0)
    (hsrc : ∀ i < bitmapPgCnt, ∃ q, g.owner (parent.bitsAddr / 4096 + i) = some (.bits q))
    (hbits : (reserveBits s.kernelVaddr.vaddrMap bitmapPgCnt).isSome = true)
    (hfree : bitmapPgCnt ≤ s.kernelPool.free) :
    wp never (copyPcbVaddrbitmapStack0 child parent) s fun r last =>
      ∃ task g', r = some task ∧ PcbCopied strict g s child xc xp parent task g' last := by
  have hplain := h.plain_mapped hchild (by simp [hpcb])
  have hpool := hplain.pool
  simp only [copyPcbVaddrbitmapStack0, allocatePid, wp_bind, wp_state, wp_update,
    wp_pure, wp_copy_page hcur (h.walk_mapped rfl hchild.1)]
  generalize hs1 : ({ s with mem := update s.mem xc (s.mem xp), nextPid := incPid s.nextPid } :
    Vm) = s1
  have hmem1 : s1.mem = update s.mem xc (s.mem xp) := by rw [← hs1]
  have h1 : Frames strict g s1 := by
    rw [← hs1]
    exact (h.write_page hplain (s.mem xp)).congr rfl rfl rfl rfl rfl
  have hvaddr1 : s1.kernelVaddr = s.kernelVaddr := by rw [← hs1]
  have hpool1 : s1.kernelPool = s.kernelPool := by rw [← hs1]
  have hsame1 : SameTasks s s1 := by
    rw [← hs1]
    exact ⟨rfl, rfl, rfl, rfl, rfl, rfl⟩
  have hunmapped1 : Unmapped s1 := by
    refine hunmapped.congr (fun f hf => ?_) hvaddr1
    rw [hmem1, update_of_ne (by omega)]
  refine wp_mono (h1.take_pages_returns hunmapped1 (by decide) (by decide) (by rwa [hvaddr1])
    (by rwa [hpool1]) fun _ => .bits child) ?_
  intro r s2 hspec
  obtain ⟨v, g2, rfl, hfetched⟩ := hspec
  have h2 := hfetched.grown.frames
  have hv := hfetched.served.aligned
  -- the bitmap of the parent is mapped where it was
  have hmaps : MapsKept g s s2 := by
    intro n f hn hmap
    refine hfetched.maps n f hn ?_
    rw [hmem1]
    exact (kernel_map_congr fun y hy => update_of_ne (by omega) _ _).2 hmap
  have hsrc2 : ∀ i < bitmapPgCnt, ∃ y, Mapped g2 s2.mem (parent.bitsAddr / 4096 + i) y := by
    intro i hi
    obtain ⟨q, ho⟩ := hsrc i hi
    exact (h2.owned _ _ (hfetched.grown.grows.owner _ _ ho)).2.2 (by simp)
  have hfreeable := fun i hi =>
    freeable_of_owner (hfetched.served.owner i hi) (by simp) (by simp)
  have hcopy := copy_pages_returns bitmapPgCnt (v / 4096) (parent.bitsAddr / 4096) s2 h2
    hfreeable hsrc2
    ?_
  · have hspec := copy_pages_spec bitmapPgCnt (v / 4096) parent.bitsAddr s2 h2 hfreeable
    rw [show v / 4096 * 4096 = v by omega] at hcopy hspec
    rw [show parent.bitsAddr / 4096 * 4096 = parent.bitsAddr by omega] at hcopy
    simp only [wp_bind]
    refine wp_mono (wp_and_any hcopy hspec) ?_
    intro _ last hlast
    obtain ⟨⟨hsame, hcopied⟩, hside, hkernel, h3⟩ := hlast
    have hlow : ∀ f < 0x200, last.mem f = s2.mem f := by
      refine fun f hf => hsame f fun i hi hmap => ?_
      have := (h2.kernel_frame hmap.2 rfl).1
      omega
    -- the frames of the bitmap of the child were not in use
    have hused : ∀ f u, g.use f = some u → last.mem f = s1.mem f := by
      intro f u hf
      rw [hsame f fun i hi hmap => ?_, hfetched.kept f u hf id]
      simp [hfetched.fresh i hi f hmap.1] at hf
    have hgrown := hfetched.grown
    refine ⟨_, g2, rfl, ⟨hgrown.grows, h3, (hsame1.trans hgrown.same).trans hside.quiet.same_tasks,
      ?_, ?_⟩, ⟨hv, ?_, ?_, hfetched.served.fresh, hfetched.served.owner⟩,
      hfetched.unmapped.congr hlow hside.quiet.kernelVaddr, fun f u hf hne => ?_,
      fun n f hn hmap => ?_,
      ?_, fun i hi x y hx hy => ?_, ⟨v, rfl⟩⟩
    · rw [hside.cr3, hgrown.cr3, ← hs1]
    · rw [hside.userPool, hgrown.userPool, ← hs1]
    · rw [hkernel, ← hpool1]
      exact hfetched.served.free
    · rw [hside.quiet.kernelVaddr, ← hvaddr1]
      exact hfetched.served.bits
    · rw [hused f u hf, hmem1, update_of_ne hne]
    · exact (kernel_map_congr hlow).2 (hmaps n f hn hmap)
    · rw [hused xc _ hchild.2, hmem1, update_self]
    · obtain ⟨q, ho⟩ := hsrc i hi
      obtain ⟨x', hx'⟩ := (h2.owned _ _ (hfetched.served.owner i hi)).2.2 (by simp)
      obtain rfl : x' = x := hx'.1.2.2.symm.trans ((kernel_map_congr hlow).1 hx).2.2
      have hy2 : Mapped g2 s2.mem (parent.bitsAddr / 4096 + i) y :=
        ⟨hmaps _ _ (by simp [ho]) hy.1, hgrown.grows.use _ _ hy.2⟩
      have hyc : y ≠ xc := by
        refine hy.ne hchild fun heq => ?_
        rw [heq, hpcb] at ho
        simp at ho
      rw [hcopied i hi x' y hx' hy2, hfetched.kept y _ hy.2 id, hmem1, update_of_ne hyc]
  · intro i hi j hj heq
    obtain ⟨q, ho⟩ := hsrc j hj
    rw [← heq, hfetched.served.fresh i hi] at ho
    simp at ho

/-! ## One user page -/

theorem walk_user_iff (hn : n < 0xc0000) :
    walk mem dir (n * 4096) = some f ↔ UserMap mem dir n f := by
  obtain ⟨hpde, hpte⟩ := page_indices (n := n) (by omega)
  have hlt : n / 1024 < 0x300 := by omega
  simp only [walk, hpde, hpte, UserMap, TableAt, hlt, true_and]
  constructor
  · intro hwalk
    split at hwalk
    · rename_i hpresent
      split at hwalk
      · rename_i hentry
        exact ⟨_, ⟨hpresent, rfl⟩, hentry, Option.some.inj hwalk⟩
      · simp at hwalk
    · simp at hwalk
  · rintro ⟨t, ⟨hpresent, rfl⟩, hentry, rfl⟩
    rw [if_pos hpresent, if_pos hentry]

/-- The frames that the mapping of a page of process `q` may write. -/
def Touched (dir q : Nat) (x : Nat) (u : Use) : Prop := x = dir ∨ ∃ i, u = .table q i

/-- Page `n` of the directory `dir` is mapped to frame `f`, and other pages stay as they are. -/
structure PageAdded (g : Ghost) (q dir n f : Nat) (s last : Vm) : Prop where
  page : UserMap last.mem dir n f
  others : ∀ m, m ≠ n → ∀ x, UserMap last.mem dir m x ↔ UserMap s.mem dir m x
  kept : UsedKept (Touched dir q) g s last
  low : ∀ x < 0x200, last.mem x = s.mem x

section

variable (h : Frames True g s)

include h

/-- The entry of a page is set in a page table that exists. -/
theorem Frames.page_added_entry (hlive : g.live q) (hdir : g.dir q = some dir)
    (ht : TableAt s.mem dir (n / 1024) t)
    (hmem : last.mem = setWord s.mem t (n % 1024) (entryFor (f * 4096))) :
    PageAdded g q dir n f s last := by
  have huse : ∀ i t', TableAt s.mem dir i t' → g.use t' = some (.table q i) :=
    fun i t' ht' => (h.tables q dir hlive hdir i t' ht').resolve_left fun hnot => hnot.1 trivial
  have htdir : dir ≠ t := (h.table_ne_dir hlive hdir ht hdir).symm
  have hpool := h.used_frame (huse _ _ ht)
  have hdirs : last.mem dir = s.mem dir := by rw [hmem, set_word_frame_ne _ _ _ htdir]
  have htable : ∀ i t', TableAt last.mem dir i t' ↔ TableAt s.mem dir i t' := by
    intro i t'
    unfold TableAt
    rw [hdirs]
  refine ⟨⟨t, (htable _ _).2 ht, ?_, ?_⟩, fun m hm x => ?_, fun x u hx hout => ?_, fun x hx => ?_⟩
  · rw [hmem, set_word_same, present_entry_for]
  · rw [hmem, set_word_same, frame_of_entry_for, Nat.mul_div_cancel _ (by decide)]
  · refine exists_congr fun t' => ?_
    rw [htable]
    refine and_congr_right fun ht' => ?_
    have hword : last.mem t' (m % 1024) = s.mem t' (m % 1024) := by
      rw [hmem, set_word_apply, if_neg]
      rintro ⟨rfl, hidx⟩
      -- a page table serves one entry of the directory
      have hsame : m / 1024 = n / 1024 := by
        have heq := (huse _ _ ht').symm.trans (huse _ _ ht)
        simpa using heq
      omega
    rw [hword]
  · rw [hmem, set_word_frame_ne]
    rintro rfl
    refine hout (.inr ⟨n / 1024, ?_⟩)
    simpa [huse _ _ ht] using hx.symm
  · rw [hmem, set_word_frame_ne _ _ _ (by omega)]

/-- A new page table is installed, and the entry of a page is set in it. -/
theorem Frames.page_added_table (hlive : g.live q) (hdir : g.dir q = some dir) (hn : n < 0xc0000)
    (habsent : present (s.mem dir (n / 1024)) = false) (ht : g.use t = none) (hpool : 0x200 ≤ t)
    (hmem : last.mem = setWord (update (setWord s.mem dir (n / 1024) (entryFor (t * 4096))) t
      fun _ => 0) t (n % 1024) (entryFor (f * 4096))) : PageAdded g q dir n f s last := by
  obtain ⟨_, -, hdiruse⟩ := h.dir_use hdir
  have htdir : dir ≠ t := by
    rintro rfl
    simp [ht] at hdiruse
  have hdirpool := (h.dir_frame hdir).1
  have huse : ∀ i t', TableAt s.mem dir i t' → g.use t' = some (.table q i) :=
    fun i t' ht' => (h.tables q dir hlive hdir i t' ht').resolve_left fun hnot => hnot.1 trivial
  -- the words of the memory: the directory, the new table and the rest
  have hother : ∀ x, x ≠ dir → x ≠ t → last.mem x = s.mem x := by
    intro x hxd hxt
    rw [hmem, set_word_frame_ne _ _ _ hxt, update_of_ne hxt, set_word_frame_ne _ _ _ hxd]
  have hentry : ∀ i, last.mem dir i =
      if i = n / 1024 then entryFor (t * 4096) else s.mem dir i := by
    intro i
    rw [hmem, set_word_frame_ne _ _ _ htdir, update_of_ne htdir, set_word_apply]
    simp
  have hnew : ∀ j, last.mem t j = if j = n % 1024 then entryFor (f * 4096) else 0 := by
    intro j
    rw [hmem, set_word_apply]
    simp
  have htable : TableAt last.mem dir (n / 1024) t := by
    refine ⟨by omega, ?_, ?_⟩
    · rw [hentry, if_pos rfl, present_entry_for]
    · rw [hentry, if_pos rfl, frame_of_entry_for, Nat.mul_div_cancel _ (by decide)]
  refine ⟨⟨t, htable, ?_, ?_⟩, fun m hm x => ?_, fun x u hx hout => ?_, fun x hx => ?_⟩
  · rw [hnew, if_pos rfl, present_entry_for]
  · rw [hnew, if_pos rfl, frame_of_entry_for, Nat.mul_div_cancel _ (by decide)]
  · by_cases hsame : m / 1024 = n / 1024
    · refine iff_of_false ?_ ?_
      · rintro ⟨t', ht', hpresent, _⟩
        obtain rfl : t = t' := htable.2.2.symm.trans (hsame ▸ ht').2.2
        rw [hnew, if_neg (by omega)] at hpresent
        simp [present] at hpresent
      · rintro ⟨t', ht', _⟩
        have hpresent := ht'.2.1
        rw [hsame, habsent] at hpresent
        simp at hpresent
    · refine exists_congr fun t' => ?_
      have htables : TableAt last.mem dir (m / 1024) t' ↔ TableAt s.mem dir (m / 1024) t' := by
        unfold TableAt
        rw [hentry, if_neg hsame]
      rw [htables]
      refine and_congr_right fun ht' => ?_
      have huse' := huse _ _ ht'
      have hword : last.mem t' = s.mem t' := by
        refine hother t' ?_ ?_
        · exact h.table_ne_dir hlive hdir ht' hdir
        · rintro rfl
          simp [ht] at huse'
      rw [hword]
  · refine hother x (fun heq => hout (.inl heq)) ?_
    rintro rfl
    simp [ht] at hx
  · exact hother x (by omega) (by omega)

/-- `page_table_add` for a page of the running process that is not mapped, with a frame for a
missing page table. -/
theorem Frames.page_table_add_user_returns (hlive : g.live q) (hdir : g.dir q = some s.cr3)
    (hv : v / 4096 = n) (hn : n < 0xc0000) (hunmapped : ∀ x, ¬UserMap s.mem s.cr3 n x)
    (hroom : present (s.mem s.cr3 (n / 1024)) = true ∨ 0 < s.kernelPool.free) :
    wp never (pageTableAdd v (f * 4096)) s fun _ last => PageAdded g q s.cr3 n f s last := by
  have hself := h.is_dir_active.self_mapped
  have hpde := pde_idx_of_page hv (by omega)
  have hpte := pte_idx_of_page hv
  rw [pageTableAdd, wp_bind, wp_load_pde hself, wp_ite, hpde]
  constructor
  · intro hpresent
    have ht : TableAt s.mem s.cr3 (n / 1024) (frameOf (s.mem s.cr3 (n / 1024))) :=
      ⟨by omega, hpresent, rfl⟩
    have habsent : present (s.mem (frameOf (s.mem s.cr3 (n / 1024))) (n % 1024)) = false := by
      by_contra hne
      exact hunmapped _ ⟨_, ht, by simpa using hne, rfl⟩
    simp only [wp_bind, wp_load_pte hself, wp_store_pte hself, hpde, hpte, hpresent,
      of_true, wp_assert, habsent, Bool.not_false]
    exact h.page_added_entry hlive hdir ht rfl
  · intro hmissing
    have habsent : present (s.mem s.cr3 (n / 1024)) = false := by simpa using hmissing
    refine wp_seq (h.palloc_returns (hroom.resolve_left hmissing)) ?_
    intro r mid hspec
    obtain ⟨t, rfl, h1, hgot⟩ := hspec
    have hpool : 0x200 ≤ t := by
      obtain ⟨b, -, haddr, -⟩ := hgot.taken
      have hstart : (mid.pool .kernel).phyAddrStart = 0x200000 := h1.layout.kernelStart
      omega
    have hti : t ≠ mid.cr3 := by
      rintro rfl
      obtain ⟨m, -, huse⟩ := h1.dir_use (hgot.cr3 ▸ hdir)
      simp [hgot.unused] at huse
    refine wp_fill_table h1.is_dir_active.self_mapped (by rw [hpde]; omega) hti ?_
    rw [hpde, hpte]
    have hadded : PageAdded g q s.cr3 n f s { withTable mid (n / 1024) t with
        mem := setWord (withTable mid (n / 1024) t).mem t (n % 1024) (entryFor (f * 4096)) } :=
      h.page_added_table hlive hdir hn habsent hgot.unused hpool
        (by rw [withTable, hgot.mem, hgot.cr3])
    exact hadded

/-- `get_a_page_without_opvaddrbitmap` for a page of the running process that is not mapped. -/
theorem Frames.get_a_page_returns (hlive : g.live q) (hdir : g.dir q = some s.cr3)
    (hv : v / 4096 = n) (hn : n < 0xc0000) (hunmapped : ∀ x, ¬UserMap s.mem s.cr3 n x)
    (hroom : Room s s.cr3 (n :: rest)) (hfree : 0 < s.userPool.free) :
    wp never (getAPageWithoutOpvaddrbitmap .user v) s fun _ last =>
      ∃ f, g.use f = none ∧ PageAdded g q s.cr3 n f s last ∧
        last.userPool.free + 1 = s.userPool.free ∧
        s.kernelPool.free ≤ last.kernelPool.free + 1 := by
  refine wp_seq (h.palloc_returns hfree) ?_
  intro r mid hspec
  obtain ⟨f, rfl, h1, hgot⟩ := hspec
  have hkernel : mid.kernelPool = s.kernelPool := by
    rw [hgot.pool]
    rfl
  have htable : present (mid.mem mid.cr3 (n / 1024)) = true ∨ 0 < mid.kernelPool.free := by
    rw [hgot.cr3, hgot.mem, hkernel]
    exact hroom.first hfree
  have hdir1 : g.dir q = some mid.cr3 := by rwa [hgot.cr3]
  refine wp_seq (wp_and_any
    (h1.page_table_add_user_returns hlive hdir1 hv hn (by rwa [hgot.cr3, hgot.mem]) htable)
    (h1.page_table_add_user hlive hdir1 hv hn hgot.unused hgot.taken fun _ => htable)) ?_
  intro _ last hlast
  obtain ⟨hadded, -, -, htables, -⟩ := hlast
  rw [hgot.cr3] at hadded
  have hfree1 : mid.userPool.free + 1 = s.userPool.free := hgot.free
  have htable1 := htables.free
  rw [hkernel] at htable1
  refine ⟨f, hgot.unused, ⟨hadded.page, fun m hm x => ?_, ?_, ?_⟩, by rw [htables.userFree, hfree1],
    by split at htable1 <;> omega⟩
  · rw [hadded.others m hm x, hgot.mem]
  · exact fun x u hx hout => (hadded.kept x u hx hout).trans (congrFun hgot.mem x)
  · exact fun x hx => (hadded.low x hx).trans (congrFun hgot.mem x)

/-- The pages of a process do not depend on the words of frames that hold no page table. -/
theorem Frames.user_map_write_page (hlive : g.live q) (hdir : g.dir q = some dir) (hx : Plain g x)
    (words : Nat → Nat) : UserMap (update s.mem x words) dir m y ↔ UserMap s.mem dir m y := by
  have hdirx : dir ≠ x := fun heq => hx.dir q (heq ▸ hdir)
  unfold UserMap TableAt
  rw [update_of_ne hdirx]
  refine exists_congr fun t => and_congr_right fun ht => ?_
  have htx : t ≠ x := by
    rintro rfl
    rcases h.tables q dir hlive hdir _ _ ht with hnot | huse
    · exact hnot.1 trivial
    · exact hx.table q _ huse
  rw [update_of_ne htx]

/-- The frames that the copying of a page to process `q` may write: the buffer, the page directory
and the page tables of the process. -/
def Copying (x dir q : Nat) (f : Nat) (u : Use) : Prop := f = x ∨ Touched dir q f u

/-- Page `n` of the directory `dir` is mapped to a new frame with the given words, and other pages
stay as they are. -/
structure PageCopied (g : Ghost) (x q dir n : Nat) (words : Nat → Nat) (s last : Vm) : Prop where
  page : ∃ f, UserMap last.mem dir n f ∧ last.mem f = words
  others : ∀ m, m ≠ n → ∀ y, UserMap last.mem dir m y ↔ UserMap s.mem dir m y
  kept : UsedKept (Copying x dir q) g s last
  low : ∀ y < 0x200, last.mem y = s.mem y
  free : last.userPool.free + 1 = s.userPool.free

/-- A page of the parent is copied to a new frame of the child. -/
theorem Frames.copy_prog_page_returns {fp : Nat} (hp : g.dir p = some s.cr3)
    (hparent : parent.pgdir = g.dirPage p * 4096) (hlive : g.live q) (hq : g.dir q = some dir)
    (hchild : child.pgdir = g.dirPage q * 4096) (hx : Mapped g s.mem buf x) (hplain : Plain g x)
    (hn : n < 0xc0000) (hroom : Room s dir (n :: rest)) (hfree : 0 < s.userPool.free)
    (hsource : UserMap s.mem s.cr3 n fp) (habsent : ∀ f, ¬UserMap s.mem dir n f) :
    wp never (copyProgPage child parent (buf * 4096) (n * 4096)) s fun _ last =>
      PageCopied g x q dir n (s.mem fp) s last := by
  have hpool := hplain.pool
  have hdirx : dir ≠ x := fun heq => hplain.dir q (heq ▸ hq)
  rw [copyProgPage, wp_bind, wp_copy_page ((walk_user_iff hn).2 hsource)
    (h.walk_mapped (by omega) hx.1), wp_bind]
  have h1 := h.write_page hplain (s.mem fp)
  have hmaps := fun m y => h.user_map_write_page (m := m) (y := y) hlive hq hplain (s.mem fp)
  refine h1.page_dir_activate hq hchild fun h2 => ?_
  generalize hs2 : ({ s with mem := update s.mem x (s.mem fp), cr3 := dir } : Vm) = s2 at h2 ⊢
  have hmem2 : s2.mem = update s.mem x (s.mem fp) := by rw [← hs2]
  have hcr32 : s2.cr3 = dir := by rw [← hs2]
  have hroom2 : Room s2 s2.cr3 (n :: rest) := by
    rw [hcr32]
    refine hroom.congr ?_ (by rw [← hs2]) (by rw [← hs2])
    rw [hmem2, update_of_ne hdirx]
  have hq2 : g.dir q = some s2.cr3 := by rwa [hcr32]
  have hfree2 : s2.userPool.free = s.userPool.free := by rw [← hs2]
  have habsent2 : ∀ f, ¬UserMap s2.mem s2.cr3 n f := by
    intro f hf
    rw [hcr32, hmem2, hmaps] at hf
    exact habsent f hf
  have hv : n * 4096 / 4096 = n := by omega
  refine wp_seq (wp_and_any (h2.get_a_page_returns hlive hq2 hv hn habsent2 hroom2 (by omega))
    (h2.map_user_page rest hlive hq2 hv hn fun _ => hroom2)) ?_
  intro r s3 hspec
  obtain ⟨⟨f, hnew, hadded, hfree3, -⟩, -, hcr3, g3, hext, h3, -⟩ := hspec
  rw [hcr32] at hadded hcr3
  have hq3 : g3.dir q = some s3.cr3 := by rw [hext.dir, hcr3, hq]
  have hlive3 : g3.live q := hext.live ▸ hlive
  have hwalk : walk s3.mem s3.cr3 (n * 4096) = some f := by
    rw [hcr3]
    exact (walk_user_iff hn).2 hadded.page
  have hplain3 := h3.plain_user (h3.walk_user hlive3 hq3 hn hwalk).2
  -- the buffer holds the words of the page of the parent
  have hlow : ∀ y < 0x200, s3.mem y = s.mem y := by
    intro y hy
    rw [hadded.low y hy, hmem2, update_of_ne (by omega)]
  have hmap3 : KernelMap s3.mem buf x := (kernel_map_congr hlow).2 hx.1
  have hbuf : walk s3.mem s3.cr3 (buf * 4096) = some x :=
    h3.walk_mapped (Nat.mul_div_cancel _ (by decide)) hmap3
  have hwords : s3.mem x = s.mem fp := by
    rw [hadded.kept x _ hx.2, hmem2, update_self]
    rintro (heq | ⟨i, hi⟩)
    · exact hdirx heq.symm
    · simp at hi
  rw [wp_bind, wp_copy_page hbuf hwalk, hwords]
  have h4 := h3.write_page hplain3 (s.mem fp)
  have hp3 : g3.dir p = some s.cr3 := by rw [hext.dir, hp]
  refine h4.page_dir_activate hp3 (by rw [hext.dirPage, hparent]) fun _ => ?_
  have hmaps3 := fun m y => h3.user_map_write_page (m := m) (y := y) hlive3 hq3 hplain3 (s.mem fp)
  rw [hcr3] at hmaps3
  refine ⟨⟨f, (hmaps3 n f).2 hadded.page, update_self _ _ _⟩, fun m hm y => ?_,
    fun y u hy hout => ?_, fun y hy => ?_, hfree3.trans hfree2⟩
  · rw [hmaps3, hadded.others m hm, hmem2, hmaps]
  · have hyf : y ≠ f := by
      rintro rfl
      simp [hnew] at hy
    show update s3.mem f (s.mem fp) y = s.mem y
    rw [update_of_ne hyf, hadded.kept y u hy fun ht => hout (.inr ht), hmem2,
      update_of_ne fun heq => hout (.inl heq)]
  · have hfpool := hplain3.pool
    show update s3.mem f (s.mem fp) y = s.mem y
    rw [update_of_ne (by omega), hlow y hy]

/-! ## All user pages -/

/-- The pages of a process whose page directory and page tables are not written. -/
theorem Frames.user_map_kept {but : Nat → Use → Prop} (hlive : g.live p) (hdir : g.dir p = some d)
    (hkept : UsedKept but g s last) (hd : ∀ n, ¬but d (.page n))
    (ht : ∀ t i, g.use t = some (.table p i) → ¬but t (.table p i)) (m y : Nat) :
    UserMap last.mem d m y ↔ UserMap s.mem d m y := by
  obtain ⟨n, -, huse⟩ := h.dir_use hdir
  unfold UserMap TableAt
  rw [hkept d _ huse (hd n)]
  refine exists_congr fun t => and_congr_right fun htable => ?_
  have htuse := (h.tables p d hlive hdir _ t htable).resolve_left fun hnot => hnot.1 trivial
  rw [hkept t _ htuse (ht t _ htuse)]

/-- The copying of pages to process `q` does not touch the tables of another process. -/
theorem Frames.not_copying (hpq : p ≠ q) (hp : g.dir p = some d) (hq : g.dir q = some dir)
    (hx : Plain g x) :
    (∀ n, ¬Copying x dir q d (.page n)) ∧
      ∀ t i, g.use t = some (.table p i) → ¬Copying x dir q t (.table p i) := by
  refine ⟨fun n => ?_, fun t i ht => ?_⟩
  · rintro (heq | heq | ⟨i, hi⟩)
    · exact hx.dir p (heq ▸ hp)
    · exact hpq (h.dir_inj hp (heq ▸ hq))
    · simp at hi
  · rintro (heq | heq | ⟨j, hj⟩)
    · exact hx.table p i (heq ▸ ht)
    · obtain ⟨n, -, huse⟩ := h.dir_use hq
      rw [← heq, ht] at huse
      simp at huse
    · exact hpq (Use.table.inj hj).1

/-- The copying of pages does not write to frames of user pages that are in use. -/
theorem Frames.user_not_copying {r : Nat} (hq : g.dir q = some dir)
    (hx : g.use x = some (.page buf)) (hf : g.use f = some (.user r m)) :
    ¬Copying x dir q f (.user r m) := by
  rintro (heq | heq | ⟨i, hi⟩)
  · rw [heq, hx] at hf
    simp at hf
  · obtain ⟨n, -, huse⟩ := h.dir_use hq
    rw [← heq, hf] at huse
    simp at huse
  · simp at hi

end

/-- What `copy_body_stack3` has done after the given pages. -/
structure PagesCopied (g : Ghost) (x q dir : Nat) (pages : List Nat) (s last : Vm) : Prop where
  copies : ∀ idx ∈ pages, ∃ fp f, UserMap s.mem s.cr3 (0x8048 + idx) fp ∧
    UserMap last.mem dir (0x8048 + idx) f ∧ last.mem f = s.mem fp
  others : ∀ m, (∀ idx ∈ pages, m ≠ 0x8048 + idx) → ∀ y,
    UserMap last.mem dir m y ↔ UserMap s.mem dir m y
  kept : UsedKept (Copying x dir q) g s last
  low : ∀ y < 0x200, last.mem y = s.mem y

/-- `copy_body_stack3` succeeds: all pages are copied. -/
theorem copy_list_returns (hpq : p ≠ q) :
    ∀ (pages : List Nat) (g : Ghost) (s : Vm), Frames True g s → g.live p → g.dir p = some s.cr3 →
    parent.pgdir = g.dirPage p * 4096 → parent.userprogVaddr.vaddrStart = userVaddrStart →
    g.live q → g.dir q = some dir → child.pgdir = g.dirPage q * 4096 → Freeable g buf →
    Mapped g s.mem buf x → (∀ idx ∈ pages, idx < 0xb7fb8) → pages.Nodup →
    Room s dir (pages.map (0x8048 + ·)) → pages.length ≤ s.userPool.free →
    (∀ idx ∈ pages, ∃ f, UserMap s.mem s.cr3 (0x8048 + idx) f) →
    (∀ idx ∈ pages, ∀ f, ¬UserMap s.mem dir (0x8048 + idx) f) →
    wp never (copyList child parent (buf * 4096) pages) s fun _ last =>
      PagesCopied g x q dir pages s last := by
  intro pages
  induction pages with
  | nil =>
    intro g s _ _ _ _ _ _ _ _ _ _ _ _ _ _ _ _
    exact ⟨by simp, fun _ _ _ => .rfl, .of_mem _ rfl, fun _ _ => rfl⟩
  | cons idx rest ih =>
    intro g s h hlivep hp hparent hstart hlive hq hchild hbuf hx hidx hnodup hroom hfree hsrc hnew
    have hlt := hidx idx (by simp)
    obtain ⟨hnot, hnodup'⟩ := List.nodup_cons.1 hnodup
    obtain ⟨fp, hfp⟩ := hsrc idx (by simp)
    have hplain : Plain g x := by
      obtain ⟨o, ho, -, hdir⟩ := hbuf
      exact h.plain_mapped hx fun r hr => hdir r (by simpa [ho] using hr)
    have hn : 0x8048 + idx < 0xc0000 := by omega
    have hpos : 0 < s.userPool.free := by
      rw [List.length_cons] at hfree
      omega
    rw [copyList, wp_bind, hstart, userVaddrStart,
      show idx * 4096 + 0x8048000 = (0x8048 + idx) * 4096 by omega]
    refine wp_mono (wp_and_any
      (h.copy_prog_page_returns hp hparent hlive hq hchild hx hplain hn hroom hpos hfp
        (hnew idx (by simp)))
      (h.copy_prog_page hp hparent hlive hq hchild hbuf hn fun _ => hroom)) ?_
    intro _ mid hspec
    obtain ⟨hcopied, -, hcr3, g1, hext, h1, hroom1, -⟩ := hspec
    have hapart := h.not_copying hpq hp hq hplain
    -- the pages of the parent are where they were
    have hparentmap : ∀ m y, UserMap mid.mem mid.cr3 m y ↔ UserMap s.mem s.cr3 m y := by
      rw [hcr3]
      exact h.user_map_kept hlivep hp hcopied.kept hapart.1 hapart.2
    have hne : ∀ i ∈ rest, 0x8048 + i ≠ 0x8048 + idx := by
      intro i hi heq
      obtain rfl : i = idx := by omega
      exact hnot hi
    have hbuf1 : Freeable g1 buf := by
      unfold Freeable at *
      rwa [hext.owner, hext.dir]
    have hx1 : Mapped g1 mid.mem buf x :=
      ⟨(kernel_map_congr hcopied.low).2 hx.1, hext.use x _ hx.2⟩
    refine wp_mono (ih g1 mid h1 (hext.live ▸ hlivep) (by rw [hext.dir, hcr3, hp])
      (by rw [hext.dirPage, hparent]) hstart (hext.live ▸ hlive) (by rw [hext.dir, hq])
      (by rw [hext.dirPage, hchild]) hbuf1 hx1 (fun i hi => hidx i (by simp [hi])) hnodup'
      (hroom1 trivial) ?_ ?_ ?_) ?_
    · have hlen := hcopied.free
      rw [List.length_cons] at hfree
      omega
    · intro i hi
      obtain ⟨f, hf⟩ := hsrc i (by simp [hi])
      exact ⟨f, (hparentmap _ _).2 hf⟩
    · intro i hi f hf
      exact hnew i (by simp [hi]) f ((hcopied.others _ (hne i hi) f).1 hf)
    · intro _ last hlast
      refine ⟨fun i hi => ?_, fun m hm y => ?_, hcopied.kept.trans hext.use hlast.kept,
        fun y hy => ?_⟩
      · rcases List.mem_cons.1 hi with rfl | hi
        · -- the frame of the first page is one of the child
          obtain ⟨f, hf, hwords⟩ := hcopied.page
          have hout : ∀ j ∈ rest, 0x8048 + i ≠ 0x8048 + j := fun j hj => (hne j hj).symm
          have huse := h1.userPages trivial q dir (hext.live ▸ hlive) (by rw [hext.dir, hq]) _ f hf
          refine ⟨fp, f, hfp, (hlast.others _ hout f).2 hf, ?_⟩
          rw [hlast.kept f _ huse (h1.user_not_copying (by rw [hext.dir, hq]) hx1.2 huse), hwords]
        · obtain ⟨fp', f', hfp', hf', hwords⟩ := hlast.copies i hi
          have hfps := (hparentmap _ _).1 hfp'
          have huse := h.userPages trivial p s.cr3 hlivep hp _ fp' hfps
          refine ⟨fp', f', hfps, hf', ?_⟩
          rw [hwords, hcopied.kept fp' _ huse (h.user_not_copying hq hx.2 huse)]
      · rw [hlast.others m (fun i hi => hm i (by simp [hi])), hcopied.others m (hm idx (by simp))]
      · rw [hlast.low y hy, hcopied.low y hy]

/-! ## The kernel stack and the open files -/

/-- The words of the page of the child after `build_child_stack`. -/
def childStack (intrExit : Nat) (words : Nat → Nat) : Nat → Nat := fun i =>
  if i = 1013 then 0
  else if i = 1004 then intrExit
  else if 1000 ≤ i ∧ i < 1004 then 0
  else words i

/-- A store of a word to a kernel page that does not hold a page directory in use. -/
theorem Frames.wp_store_page (h : Frames strict g s) (hmap : Mapped g s.mem n x)
    (hplain : Plain g x) (words : Nat → Nat) (i value : Nat) (hi : i < 1024) :
    wp ok (store (n * 4096 + 4 * i) value)
        { s with mem := update s.mem x words } Q ↔
      Q () { s with mem := update s.mem x (update words i value) } := by
  have hwalk : walk (update s.mem x words) s.cr3 (n * 4096 + 4 * i) = some x :=
    (h.write_page hplain words).walk_mapped (by omega) (hmap.write_page hplain.pool words).1
  have hword : 4 * i % 4096 / 4 = i := by omega
  simp [store, hwalk, hword, setWord]

/-- The words that `build_child_stack` stores, one after the other. -/
theorem child_stack_eq (intrExit : Nat) (words : Nat → Nat) :
    update (update (update (update (update
      (update words 1013 0) 1004 intrExit) 1003 0) 1002 0) 1001 0) 1000 0 =
      childStack intrExit words := by
  funext i
  simp only [Function.update_apply, childStack]
  split_ifs <;> first | rfl | omega

/-- The words that `build_child_stack` writes. -/
theorem Frames.wp_build_child_stack (h : Frames strict g s) (hmap : Mapped g s.mem n x)
    (hplain : Plain g x) (task : Task) {Q : Task → Vm → Prop} :
    wp ok (buildChildStack (n * 4096) task) s Q ↔
      Q { task with selfKstack := n * 4096 + 4 * 1000 }
        { s with mem := update s.mem x (childStack s.intrExit (s.mem x)) } := by
  have hstack : intrStack (n * 4096) = n * 4096 + 4020 := by
    unfold intrStack
    omega
  have hfirst : ∀ {Q : Unit → Vm → Prop}, wp ok (store (n * 4096 + 4 * 1013) 0) s Q ↔
      Q () { s with mem := update s.mem x (update (s.mem x) 1013 0) } := by
    intro Q
    have hstore : wp ok (store (n * 4096 + 4 * 1013) 0)
        { s with mem := update s.mem x (s.mem x) } Q ↔ _ :=
      h.wp_store_page hmap hplain (s.mem x) 1013 0 (by decide)
    rwa [Function.update_eq_self] at hstore
  simp only [buildChildStack, wp_bind, hstack,
    show n * 4096 + 4020 - 4 = n * 4096 + 4 * 1004 by omega,
    show n * 4096 + 4020 - 8 = n * 4096 + 4 * 1003 by omega,
    show n * 4096 + 4020 - 12 = n * 4096 + 4 * 1002 by omega,
    show n * 4096 + 4020 - 16 = n * 4096 + 4 * 1001 by omega,
    show n * 4096 + 4020 - 20 = n * 4096 + 4 * 1000 by omega]
  rw [hfirst, wp_state, h.wp_store_page hmap hplain _ 1004 _ (by decide),
    h.wp_store_page hmap hplain _ 1003 _ (by decide),
    h.wp_store_page hmap hplain _ 1002 _ (by decide),
    h.wp_store_page hmap hplain _ 1001 _ (by decide),
    h.wp_store_page hmap hplain _ 1000 _ (by decide), child_stack_eq, wp_pure]

/-- A descriptor is closed or refers to a slot of `file_table` with an inode. -/
def FdOpen (s : Vm) (globalFd : Int) : Prop :=
  globalFd = -1 ∨ 0 ≤ globalFd ∧ globalFd < 32 ∧ s.fdInode globalFd.toNat ≠ none

instance (s : Vm) (globalFd : Int) : Decidable (FdOpen s globalFd) :=
  inferInstanceAs (Decidable (_ ∨ _ ∧ _ ∧ _))

/-- `update_inode_open_cnts` succeeds exactly when the descriptors are open or closed. -/
theorem wp_update_inode_open_cnts (thread : Task) :
    ∀ (count localFd : Nat) (s : Vm),
    ((∀ k < count, FdOpen s (thread.fdTable (localFd + k))) →
      ∀ counts, Q () { s with iOpenCnts := counts }) →
    (¬(∀ k < count, FdOpen s (thread.fdTable (localFd + k))) → ok .badAccess ∧ ok .assertFailed) →
    wp ok (updateInodeOpenCnts thread count localFd) s Q := by
  intro count
  induction count with
  | zero => exact fun _ s hgood _ => hgood (by simp) s.iOpenCnts
  | succ count ih =>
    intro localFd s hgood hbad
    have hsplit : (∀ k < count + 1, FdOpen s (thread.fdTable (localFd + k))) ↔
        FdOpen s (thread.fdTable localFd) ∧
          ∀ k < count, FdOpen s (thread.fdTable (localFd + 1 + k)) := by
      rw [Nat.forall_lt_succ_left]
      refine and_congr .rfl (forall₂_congr fun k _ => ?_)
      rw [show localFd + (k + 1) = localFd + 1 + k by omega]
    rw [hsplit] at hgood hbad
    -- the rest of the loop, after the counts may have changed
    have hrest : FdOpen s (thread.fdTable localFd) → ∀ counts,
        wp ok (updateInodeOpenCnts thread count (localFd + 1))
          { s with iOpenCnts := counts } Q := by
      intro hfirst counts
      refine ih (localFd + 1) _ (fun hothers counts' => hgood ⟨hfirst, hothers⟩ counts') ?_
      exact fun hnot => hbad fun hall => hnot hall.2
    simp only [updateInodeOpenCnts, wp_bind, wp_assert, wp_when, wp_access, wp_non_null,
      decide_eq_true_eq, decide_eq_false_iff_not]
    refine ⟨fun hlt => ⟨fun hopen => ⟨fun hpos => ⟨fun inode hinode => ?_, fun hnone => ?_⟩,
      fun hneg => ?_⟩, fun hclosed => ?_⟩, fun hge => ?_⟩
    · exact hrest (.inr ⟨hpos, hlt, by simp [hinode]⟩) _
    · refine (hbad fun hall => ?_).1
      rcases hall.1 with hminus | ⟨-, -, hsome⟩
      · exact hopen hminus
      · exact hsome hnone
    · refine (hbad fun hall => ?_).1
      rcases hall.1 with hminus | ⟨hpos, -⟩
      · exact hopen hminus
      · exact hneg hpos
    · exact hrest (.inl (by simpa using hclosed)) s.iOpenCnts
    · refine (hbad fun hall => ?_).2
      rcases hall.1 with hminus | ⟨-, hlt, -⟩
      · omega
      · exact hge hlt

/-- All descriptors of a process that a fork counts are open or closed. -/
def FdsOpen (s : Vm) (task : Task) : Prop := ∀ k < 5, FdOpen s (task.fdTable (3 + k))

instance (s : Vm) (task : Task) : Decidable (FdsOpen s task) :=
  inferInstanceAs (Decidable (∀ k < 5, _))

end LosKernel.Mm
