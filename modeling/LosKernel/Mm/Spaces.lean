import LosKernel.Mm.UserPages

/-!
# Building and copying address spaces

What `page_dir_activate`, `create_page_dir` and the copying loops of `fork.c` do to a state that
satisfies `Frames`. `copy_body_stack3_eq` turns the two loops over bytes and bits into one loop
over the list of the pages whose bits are set.
-/

namespace LosKernel.Mm

open Prog hiding update
open Function (update update_of_ne update_self)

variable {strict : Prop} {g : Ghost} {s last : Vm} {dir n p q buf f x : Nat} {ok : Stop → Prop}
  {child parent : Task}

/-! ## Page directories -/

/-- The memory when frame `f` has become a page directory with the kernel half of `dir`. -/
def withDir (mem : Nat → Nat → Nat) (dir f : Nat) : Nat → Nat → Nat :=
  setWord (update mem f fun i => if 0x300 ≤ i then mem dir i else mem f i) f 1023
    (entryFor (f * 4096))

theorem with_dir_ne (mem : Nat → Nat → Nat) (dir : Nat) (hx : x ≠ f) :
    withDir mem dir f x = mem x := by
  rw [withDir, set_word_frame_ne _ _ _ hx, update_of_ne hx]

section

variable (h : Frames strict g s)

include h

theorem Frames.set_cr3 (hdir : dir = kernelDir ∨ ∃ p, g.dir p = some dir) :
    Frames strict g { s with cr3 := dir } :=
  { h with
    layout := ⟨h.layout.1, h.layout.2, h.layout.3, h.layout.4, h.layout.5, h.layout.6⟩
    active := hdir }

theorem Frames.wp_addr_v2p_mapped (hmap : KernelMap s.mem n f) {Q : Nat → Vm → Prop} :
    wp ok (addrV2p (n * 4096)) s Q ↔ Q (f * 4096) s := by
  have hself := h.is_dir_active.self_mapped
  rw [wp_addr_v2p hself, h.active_kernel_entry (by omega) hmap.1,
    pte_idx_of_page (n := n) (by omega)]
  simp [hmap.2.2]

theorem Frames.page_dir_activate {task : Task} (hdir : g.dir p = some dir)
    (hpgdir : task.pgdir = g.dirPage p * 4096) {Q : Unit → Vm → Prop}
    (hQ : Frames strict g { s with cr3 := dir } → Q () { s with cr3 := dir }) :
    wp ok (pageDirActivate task) s Q := by
  obtain ⟨-, -, hmap, -⟩ := h.dirs p dir hdir
  have hne : task.pgdir ≠ 0 := by
    have := hmap.1.1
    omega
  rw [pageDirActivate, if_pos hne, wp_bind, hpgdir, h.wp_addr_v2p_mapped hmap,
    Nat.mul_div_cancel _ (by decide)]
  exact hQ (h.set_cr3 (.inr ⟨p, hdir⟩))

/-- The last part of `create_page_dir`. -/
theorem Frames.wp_fill_dir {v : Nat} (hmap : Mapped g s.mem (v / 4096) f) (hplain : Plain g f)
    (haligned : v % 4096 = 0) {Q : Nat → Vm → Prop} :
    wp ok (do
      copyPage v 0xfffff000 0x300
      let newPageDirPhyAddr ← addrV2p v
      store (v + 1023 * 4) (entryFor newPageDirPhyAddr)
      pure v) s Q ↔ Q v { s with mem := withDir s.mem s.cr3 f } := by
  have hroot : walk s.mem s.cr3 0xfffff000 = some s.cr3 :=
    walk_pde_ptr h.is_dir_active.self_mapped 0
  generalize hwords : (fun i => if 0x300 ≤ i then s.mem s.cr3 i else s.mem f i) = words
  have h2 := h.write_page hplain words
  have hmap2 := hmap.write_page hplain.pool words
  have hwalk : walk (update s.mem f words) s.cr3 (v + 1023 * 4) = some f :=
    h2.walk_mapped (by omega) hmap2.1
  have hv2p : ∀ {Q : Nat → Vm → Prop}, wp ok (addrV2p v)
      { s with mem := update s.mem f words } Q ↔
      Q (f * 4096) { s with mem := update s.mem f words } := by
    intro Q
    rw [show v = v / 4096 * 4096 by omega]
    exact h2.wp_addr_v2p_mapped hmap2.1
  simp only [copyPage, store, wp_bind, wp_frame_at, hroot, h.walk_mapped rfl hmap.1, of_some,
    wp_update, hwords, hv2p, hwalk, wp_store_word, wp_pure]
  rw [show (v + 1023 * 4) % 4096 / 4 = 1023 by omega, withDir, hwords]

/-- `create_page_dir`: the new directory has an empty user half. -/
theorem Frames.create_page_dir (o : Nat → Owner) (ho : ∀ v q, o v = .dir q → g.dir q = none) :
    wp any createPageDir s fun r last =>
      SameTasks s last ∧ last.cr3 = s.cr3 ∧ last.userPool = s.userPool ∧
      ∃ g', Grows g g' ∧ Frames strict g' last ∧ (r ≠ 0 →
        r % 4096 = 0 ∧ last.kernelPool.free + 1 = s.kernelPool.free ∧ g.owner (r / 4096) = none ∧
        g'.owner (r / 4096) = some (o r) ∧
        ∃ dir, Mapped g' last.mem (r / 4096) dir ∧ IsDir last.mem dir ∧
          ∀ i < 0x300, present (last.mem dir i) = false) := by
  refine wp_seq (h.get_kernel_pages 1 o) ?_
  intro r mid ⟨hsame, hcr3, huser, g', hgrows, h1, hserved⟩
  cases r with
  | none => simpa using ⟨hsame, hcr3, huser, g', hgrows, h1⟩
  | some v =>
    obtain ⟨haligned, hfree, hpages⟩ := hserved v rfl
    obtain ⟨hnone, howner, f, hmap, hzero⟩ := hpages 0 (by omega)
    rw [Nat.add_zero] at hnone howner hmap
    have hplain : Plain g' f := by
      refine h1.plain_mapped hmap fun q hq => ?_
      rw [hgrows.dir]
      exact ho v q (by simpa [howner] using hq)
    have hf := hplain.pool
    refine (h1.wp_fill_dir hmap hplain haligned).2 ?_
    dsimp only
    have h3 : Frames strict g' { mid with mem := withDir mid.mem mid.cr3 f } :=
      (h1.write_page hplain _).write_page hplain _
    have hword : ∀ i, i ≠ 1023 → withDir mid.mem mid.cr3 f f i =
        if 0x300 ≤ i then mid.mem mid.cr3 i else mid.mem f i := by
      intro i hi
      rw [withDir, set_word_apply, if_neg (by omega), update_self]
    refine ⟨hsame.trans ⟨rfl, rfl, rfl, rfl, rfl, rfl⟩, hcr3, huser, g', hgrows, h3, fun _ =>
      ⟨haligned, hfree, hnone, howner, f, (hmap.write_page hf _).write_page hf _, ⟨?_, ?_⟩, ?_⟩⟩
    · intro k hlo hhi
      have hkd : kernelDir ≠ f := by
        have : kernelDir = 0x100 := rfl
        omega
      rw [hword k (by omega), with_dir_ne _ _ hkd, if_pos hlo]
      exact h1.is_dir_active.kernel k hlo hhi
    · simp [withDir]
    · intro i hi
      rw [hword i (by omega), if_neg (by omega), hzero]
      rfl

/-! ## Copying pages -/

/-- `memcpy` to a kernel page that does not hold a page directory in use. -/
theorem Frames.copy_page_kernel {dst src first : Nat} (hdst : dst / 4096 = n)
    (hmap : Mapped g s.mem n x) (howner : ∀ p, g.owner n = some (.dir p) → g.dir p = none) :
    wp any (copyPage dst src first) s fun _ last =>
      Frames strict g last ∧ ∃ words, last = { s with mem := update s.mem x words } := by
  have hplain := h.plain_mapped hmap howner
  simp only [copyPage, wp_bind, wp_frame_at, h.walk_mapped hdst hmap.1, Option.some.injEq,
    forall_eq', and_any]
  exact fun _ _ => ⟨h.write_page hplain _, _, rfl⟩

end

/-- `memcpy` of several pages to kernel pages that do not hold page directories in use. -/
theorem copy_pages_spec : ∀ (cnt n src : Nat) (s : Vm), Frames strict g s →
    (∀ i < cnt, Freeable g (n + i)) →
    wp any (copyPages cnt (n * 4096) src) s fun _ last =>
      KernelSide s last ∧ last.kernelPool = s.kernelPool ∧ Frames strict g last := by
  intro cnt
  induction cnt with
  | zero =>
    intro n src s h _
    exact ⟨.refl s, rfl, h⟩
  | succ cnt ih =>
    intro n src s h hpages
    obtain ⟨o, ho, hmapped, hdir⟩ := hpages 0 (by omega)
    obtain ⟨x, hx⟩ := (h.owned n o ho).2.2 hmapped
    refine wp_seq (h.copy_page_kernel (by omega) hx fun p hp => hdir p ?_) ?_
    · simpa [show g.owner n = some o from ho] using hp
    · rintro _ _ ⟨h1, words, rfl⟩
      rw [← Nat.add_one_mul]
      refine wp_mono (ih (n + 1) (src + 4096) _ h1 fun i hi => ?_) ?_
      · rw [show n + 1 + i = n + (i + 1) by omega]
        exact hpages (i + 1) (by omega)
      · intro _ last ⟨hside, hpool, h2⟩
        have hfirst : KernelSide s { s with mem := update s.mem x words } :=
          ⟨⟨⟨rfl, rfl, rfl, rfl, rfl, rfl⟩, rfl, rfl⟩, rfl, rfl⟩
        exact ⟨hfirst.trans hside, hpool, h2⟩

/-! ## The loops of `copy_body_stack3` -/

/-- Copy the pages with the given indices, in this order. -/
def copyList (childThread parentThread : Task) (bufPage : Nat) : List Nat → Call Unit
  | [] => pure ()
  | idx :: rest => do
    copyProgPage childThread parentThread bufPage
      (idx * 4096 + parentThread.userprogVaddr.vaddrStart)
    copyList childThread parentThread bufPage rest

theorem copy_list_append (child parent : Task) (bufPage : Nat) (l l' : List Nat) :
    copyList child parent bufPage (l ++ l') = (do
      copyList child parent bufPage l
      copyList child parent bufPage l') := by
  induction l with
  | nil => rfl
  | cons idx rest ih =>
    funext s
    simp only [List.cons_append, copyList, bind_run, ih]
    cases copyProgPage child parent bufPage (idx * 4096 + parent.userprogVaddr.vaddrStart) s <;> rfl

/-- The indices of the virtual pages that are taken, among `count` of them from `first` on. -/
def takenPages (m : BitMap) (first count : Nat) : List Nat :=
  (List.range' first count).filter fun idx => bitmapScanTest m idx

/-- The inner loop visits the pages of its byte whose bits are set. -/
theorem copy_byte_eq (child parent : Task) (bufPage idxByte : Nat) : ∀ count idxBit,
    copyByte child parent bufPage idxByte count idxBit = copyList child parent bufPage
      (takenPages parent.userprogVaddr.vaddrMap (idxByte * 8 + idxBit) count) := by
  intro count
  induction count with
  | zero => exact fun _ => rfl
  | succ count ih =>
    intro idxBit
    have hrest := ih (idxBit + 1)
    unfold takenPages at *
    rw [copyByte, List.range'_succ, hrest]
    cases hbit : bitmapScanTest parent.userprogVaddr.vaddrMap (idxByte * 8 + idxBit) with
    | false =>
      rw [List.filter_cons_of_neg (by simp [hbit])]
      rfl
    | true =>
      rw [List.filter_cons_of_pos (by simp [hbit])]
      rfl

/-- A byte that is 0 has no bits that are set. -/
theorem taken_pages_zero_byte (m : BitMap) {idx : Nat} (h : m.bits idx = 0) :
    takenPages m (idx * 8) 8 = [] := by
  rw [takenPages, List.filter_eq_nil_iff]
  intro j hj
  obtain ⟨k, hk, rfl⟩ := List.mem_range'.1 hj
  have hbyte : (idx * 8 + k) / 8 = idx := by omega
  simp [bitmapScanTest, hbyte, h]

/-- `copy_body_stack3` visits the pages whose bits are set in ascending order. -/
theorem copy_body_stack3_eq (child parent : Task) (bufPage : Nat) : ∀ count idxByte,
    copyBodyStack3 child parent bufPage count idxByte = copyList child parent bufPage
      (takenPages parent.userprogVaddr.vaddrMap (idxByte * 8) (count * 8)) := by
  intro count
  induction count with
  | zero => exact fun _ => rfl
  | succ count ih =>
    intro idxByte
    have hsplit : takenPages parent.userprogVaddr.vaddrMap (idxByte * 8) ((count + 1) * 8) =
        takenPages parent.userprogVaddr.vaddrMap (idxByte * 8) 8 ++
        takenPages parent.userprogVaddr.vaddrMap ((idxByte + 1) * 8) (count * 8) := by
      unfold takenPages
      rw [← List.filter_append, show (idxByte + 1) * 8 = idxByte * 8 + 1 * 8 by omega,
        List.range'_append, show 8 + count * 8 = (count + 1) * 8 by omega]
    rw [copyBodyStack3, ih (idxByte + 1), hsplit, copy_list_append]
    by_cases hbyte : parent.userprogVaddr.vaddrMap.bits idxByte = 0
    · rw [taken_pages_zero_byte _ hbyte]
      simp only [when, hbyte]
      rfl
    · simp only [when, ne_eq, hbyte]
      rw [copy_byte_eq]
      rfl

/-- A user page that the active address space finds is mapped to a frame of the user pool. -/
theorem Frames.walk_user (h : Frames strict g s) (hlive : g.live q) (hdir : g.dir q = some s.cr3)
    (hn : n < 0xc0000) (hwalk : walk s.mem s.cr3 (n * 4096) = some f) :
    UserMap s.mem s.cr3 n f ∧ s.userPool.phyAddrStart ≤ f * 4096 := by
  obtain ⟨hpde, hpte⟩ := page_indices (n := n) (by omega)
  simp only [walk, hpde, hpte] at hwalk
  split at hwalk
  · rename_i hpresent
    split at hwalk
    · rename_i hentry
      obtain rfl := Option.some.inj hwalk
      have htable : TableAt s.mem s.cr3 (n / 1024) (frameOf (s.mem s.cr3 (n / 1024))) :=
        ⟨by omega, hpresent, rfl⟩
      refine ⟨⟨_, htable, hentry, rfl⟩, ?_⟩
      rcases h.entries q _ hlive hdir _ _ htable (n % 1024) with hzero | hstart
      · simp [hzero, present] at hentry
      · exact hstart
    · simp at hwalk
  · simp at hwalk

/-- `Room` depends on the directory and on the numbers of free frames. -/
theorem Room.congr {pages : List Nat} (h : Room s dir pages) (hmem : last.mem dir = s.mem dir)
    (hkernel : last.kernelPool = s.kernelPool) (huser : last.userPool = s.userPool) :
    Room last dir pages := by
  unfold Room missingTables at *
  rwa [hmem, hkernel, huser]

/-- The copying of one page keeps the invariant, and the page is then one of the child. -/
theorem Frames.copy_prog_page (h : Frames strict g s) {rest : List Nat} (hp : g.dir p = some s.cr3)
    (hparent : parent.pgdir = g.dirPage p * 4096) (hlive : g.live q) (hq : g.dir q = some dir)
    (hchild : child.pgdir = g.dirPage q * 4096) (hbuf : Freeable g buf) (hn : n < 0xc0000)
    (hroom : strict → Room s dir (n :: rest)) :
    wp any (copyProgPage child parent (buf * 4096) (n * 4096)) s fun _ last =>
      Quiet s last ∧ last.cr3 = s.cr3 ∧ ∃ g', Extends g g' ∧ Frames strict g' last ∧
        (strict → Room last dir rest) ∧ (strict → ∃ f, g'.use f = some (.user q n)) := by
  obtain ⟨o, ho, hmapped, hnotdir⟩ := hbuf
  have howner : ∀ r, g.owner buf = some (.dir r) → g.dir r = none :=
    fun r hr => hnotdir r (by simpa [ho] using hr)
  obtain ⟨x, hx⟩ := (h.owned buf o ho).2.2 hmapped
  have hxdir : dir ≠ x := fun heq => (h.plain_mapped hx howner).dir q (heq ▸ hq)
  refine wp_seq (h.copy_page_kernel (by omega) hx howner) ?_
  rintro _ _ ⟨h1, words, rfl⟩
  rw [wp_bind]
  refine h1.page_dir_activate hq hchild fun h2 => ?_
  refine wp_seq (h2.map_user_page rest hlive hq (by omega) hn fun hs =>
    (hroom hs).congr (update_of_ne hxdir _ _) rfl rfl) ?_
  intro r s3 ⟨hquiet3, hcr3, g3, hext, h3, hroom3, _⟩
  -- the page of the child that is written
  simp only [copyPage, wp_bind, wp_frame_at, and_any]
  intro source _ target htarget
  have hlive3 : g3.live q := hext.live ▸ hlive
  have hq3 : g3.dir q = some s3.cr3 := by rw [hext.dir, hcr3, hq]
  obtain ⟨hmap, hstart⟩ := h3.walk_user hlive3 hq3 hn htarget
  have hplain := h3.plain_user hstart
  have h4 := h3.write_page hplain fun i => if 0 ≤ i then s3.mem source i else s3.mem target i
  have hp3 : g3.dir p = some s.cr3 := by rw [hext.dir, hp]
  refine h4.page_dir_activate hp3 (by rw [hext.dirPage, hparent]) fun h5 => ?_
  refine ⟨?_, rfl, g3, hext, h5, fun hs => ?_, fun hs => ?_⟩
  · exact ⟨⟨hquiet3.tasks, hquiet3.threadAllList, hquiet3.mainThread, hquiet3.cur, hquiet3.fdInode,
      hquiet3.intrExit⟩, hquiet3.kernelVaddr, hquiet3.nextPid⟩
  · have hne : dir ≠ target := fun heq => hplain.dir q (by rw [hext.dir, hq, heq])
    exact (hroom3 hs).congr (update_of_ne hne _ _) rfl rfl
  · exact ⟨target, h3.userPages hs q s3.cr3 hlive3 hq3 n target hmap⟩

/-- `copy_body_stack3` keeps the invariant, and the pages are then pages of the child. -/
theorem copy_list_spec : ∀ (pages : List Nat) (g : Ghost)
    (s : Vm), Frames strict g s → g.dir p = some s.cr3 → parent.pgdir = g.dirPage p * 4096 →
    parent.userprogVaddr.vaddrStart = userVaddrStart → g.live q → g.dir q = some dir →
    child.pgdir = g.dirPage q * 4096 → Freeable g buf → (∀ idx ∈ pages, idx < 0xb7fb8) →
    (strict → Room s dir (pages.map (0x8048 + ·))) →
    wp any (copyList child parent (buf * 4096) pages) s fun _ last =>
      Quiet s last ∧ last.cr3 = s.cr3 ∧ ∃ g', Extends g g' ∧ Frames strict g' last ∧
        (strict → ∀ idx ∈ pages, ∃ f, g'.use f = some (.user q (0x8048 + idx))) := by
  intro pages
  induction pages with
  | nil =>
    intro g s h _ _ _ _ _ _ _ _ _
    exact ⟨Std.Refl.refl s, rfl, g, .refl g, h, by simp⟩
  | cons idx rest ih =>
    intro g s h hp hparent hstart hlive hq hchild hbuf hidx hroom
    have hlt := hidx idx (by simp)
    rw [copyList, wp_bind, hstart, userVaddrStart,
      show idx * 4096 + 0x8048000 = (0x8048 + idx) * 4096 by omega]
    refine wp_mono (h.copy_prog_page hp hparent hlive hq hchild hbuf (by omega) hroom) ?_
    rintro _ mid ⟨hquiet, hcr3, g1, hext, h1, hroom1, hused⟩
    refine wp_mono (ih g1 mid h1 (by rw [hext.dir, hcr3, hp]) (by rw [hext.dirPage, hparent])
      hstart (hext.live ▸ hlive) (by rw [hext.dir, hq]) (by rw [hext.dirPage, hchild]) ?_
      (fun i hi => hidx i (by simp [hi])) hroom1) ?_
    · unfold Freeable at *
      rwa [hext.owner, hext.dir]
    · rintro _ last ⟨hquiet', hcr3', g', hext', h2, hused'⟩
      refine ⟨IsTrans.trans _ _ _ hquiet hquiet', hcr3'.trans hcr3, g', hext.trans hext', h2, ?_⟩
      intro hs i hi
      rcases List.mem_cons.1 hi with rfl | hi
      · obtain ⟨f, hf⟩ := hused hs
        exact ⟨f, hext'.use f _ hf⟩
      · exact hused' hs i hi

end LosKernel.Mm
