import LosKernel.Mm.Processes

/-!
# Fork, exit and wait keep the invariant

A fork takes 26 kernel pages for the child and a page table for every 4 MB of its user half that
holds a page. `ForkRoom` says that there are frames for these page tables, unless the fork fails
before it comes to them.
-/

namespace LosKernel.Mm

open Prog hiding update
open Function (update update_of_ne update_self)

variable {p n child dir v : Nat} {task parent : Task} {g' g : Ghost} {ok : Stop → Prop}
  {strict : Prop} {s last : Vm}

/-! ## Taking kernel pages -/

/-- Kernel pages were taken, and the processes are as before. -/
structure Grown (strict : Prop) (g : Ghost) (s : Vm) (g' : Ghost) (last : Vm) : Prop where
  grows : Grows g g'
  frames : Frames strict g' last
  same : SameTasks s last
  cr3 : last.cr3 = s.cr3
  userPool : last.userPool = s.userPool

theorem Grown.trans {g'' : Ghost} {mid : Vm} (h : Grown strict g s g' mid)
    (h' : Grown strict g' mid g'' last) : Grown strict g s g'' last :=
  ⟨h.grows.trans h'.grows, h'.frames, h.same.trans h'.same, h'.cr3.trans h.cr3,
    h'.userPool.trans h.userPool⟩

/-- The bitmap after `vaddr_get` took `cnt` bits. -/
def reserveBits (m : BitMap) (cnt : Nat) : Option BitMap :=
  (bitmapScan m cnt).map fun b => bitmapSetRange m b cnt true

/-- A request for kernel pages was served. -/
structure Served (g : Ghost) (s : Vm) (g' : Ghost) (last : Vm) (pages v : Nat)
    (o : Owner) : Prop where
  aligned : v % 4096 = 0
  free : last.kernelPool.free + pages = s.kernelPool.free
  bits : reserveBits s.kernelVaddr.vaddrMap pages = some last.kernelVaddr.vaddrMap
  fresh : ∀ i < pages, g.owner (v / 4096 + i) = none
  owner : ∀ i < pages, g'.owner (v / 4096 + i) = some o

theorem Took.reserve_bits {pages : Nat} (h : Took s pages v last) :
    reserveBits s.kernelVaddr.vaddrMap pages = some last.kernelVaddr.vaddrMap := by
  obtain ⟨-, b, hscan, -, hmark⟩ := h
  rw [reserveBits, hscan, hmark]
  rfl

theorem Frames.take_pages (h : Frames strict g s) (pages : Nat) (o : Nat → Owner) :
    wp any (getKernelPages pages) s fun r last =>
      ∃ g', Grown strict g s g' last ∧ ∀ v, r = some v → Served g s g' last pages v (o v) := by
  refine wp_mono (wp_and (h.get_kernel_pages pages o) (get_kernel_pages_took pages s)) ?_
  intro r last ⟨⟨hsame, hcr3, huser, g', hgrows, h1, hserved⟩, _, htook⟩
  refine ⟨g', ⟨hgrows, h1, hsame, hcr3, huser⟩, fun v hv => ?_⟩
  obtain ⟨haligned, hfree, hpages⟩ := hserved v hv
  exact ⟨haligned, hfree, (htook v hv).reserve_bits, fun i hi => (hpages i hi).1,
    fun i hi => (hpages i hi).2.1⟩

/-- A page that somebody holds as anything but a page directory may be written and freed. -/
theorem freeable_of_owner {o : Owner} (h : g.owner n = some o) (hne : o ≠ .reserved)
    (hdir : ∀ p, o ≠ .dir p) : Freeable g n :=
  ⟨o, h, hne, fun p hp => absurd hp (hdir p)⟩

/-! ## Fork -/

/-- The control block of a child that has no page directory of its own yet. -/
abbrev childBlock (parent : Task) (pid : Int) (bits : Nat) : Task :=
  { parent with pid := pid, status := .ready, parentPid := parent.pid, bitsAddr := bits }

/-- The child gets a copy of the control block and pages for its bitmap. -/
theorem Frames.copy_pcb (h : Frames strict g s) (parent : Task)
    (hpcb : g.owner (child / 4096) = some (.pcb child)) :
    wp any (copyPcbVaddrbitmapStack0 child parent) s fun r last =>
      ∃ g', Grown strict g s g' last ∧ ∀ task, r = some task →
        (∃ pid bits, task = childBlock parent pid bits) ∧
        Served g s g' last bitmapPgCnt task.bitsAddr (.bits child) := by
  obtain ⟨-, -, hmapped⟩ := h.owned _ _ hpcb
  obtain ⟨x, hx⟩ := hmapped (by simp)
  simp only [copyPcbVaddrbitmapStack0, allocatePid, wp_bind, wp_state, wp_update, wp_pure]
  refine wp_mono (h.copy_page_kernel rfl hx (by simp [hpcb])) ?_
  rintro _ _ ⟨h1, words, rfl⟩
  have h1' : Frames strict g { s with
      mem := update s.mem x words, nextPid := incPid s.nextPid } :=
    h1.congr rfl rfl rfl rfl rfl
  refine wp_mono (h1'.take_pages bitmapPgCnt fun _ => .bits child) ?_
  rintro r s2 ⟨g', hgrown, hserved⟩
  have hgrown' : Grown strict g s g' s2 :=
    ⟨hgrown.grows, hgrown.frames, hgrown.same.after ⟨rfl, rfl, rfl, rfl, rfl, rfl⟩, hgrown.cr3,
      hgrown.userPool⟩
  cases r with
  | none => exact ⟨g', hgrown', by simp⟩
  | some bits =>
    obtain ⟨haligned, hfree, hbits, hfresh, howner⟩ := hserved bits rfl
    rw [wp_bind, show bits = bits / 4096 * 4096 by omega]
    refine wp_mono (copy_pages_spec bitmapPgCnt (bits / 4096) parent.bitsAddr s2
      hgrown.frames fun i hi => freeable_of_owner (howner i hi) (by simp) (by simp)) ?_
    rintro _ last ⟨hside, hpool, h3⟩
    rw [← show bits = bits / 4096 * 4096 by omega]
    refine ⟨g', ⟨hgrown'.grows, h3, hgrown'.same.trans hside.quiet.same_tasks,
      hside.cr3.trans hgrown'.cr3, hside.userPool.trans hgrown'.userPool⟩, ?_⟩
    rintro _ ⟨⟩
    exact ⟨⟨_, _, rfl⟩, haligned, by rwa [hpool], by rwa [hside.quiet.kernelVaddr], hfresh, howner⟩

/-- The user pages that a fork copies, in the order of copying. -/
def forkPages (parent : Task) : List Nat :=
  (takenPages parent.userprogVaddr.vaddrMap 0
    (parent.userprogVaddr.vaddrMap.btmpBytesLen * 8)).map (0x8048 + ·)

/-- The pages that a fork copies are the ones that the bitmap marks. -/
theorem mem_fork_pages (huser : UserLayout task) : n ∈ forkPages task ↔ n < 0xc0000 ∧ 0x8048 ≤ n ∧
      bitmapScanTest task.userprogVaddr.vaddrMap (n - 0x8048) = true := by
  simp only [forkPages, takenPages, List.mem_map, List.mem_filter, List.mem_range'_1, huser.2,
    show userMapLen * 8 = 0xb7fb8 by decide]
  constructor
  · rintro ⟨idx, ⟨⟨-, hlt⟩, hbit⟩, rfl⟩
    rw [show 0x8048 + idx - 0x8048 = idx by omega]
    exact ⟨by omega, by omega, hbit⟩
  · rintro ⟨hlt, hle, hbit⟩
    exact ⟨n - 0x8048, ⟨⟨by omega, by omega⟩, hbit⟩, by omega⟩

/-- The number of page tables for the pages that get a frame. -/
def forkTables (s : Vm) (parent : Task) : Nat :=
  (((forkPages parent).take s.userPool.free).map (· / 1024)).toFinset.card

/-- If the kernel pages for the child can be taken, then there are frames for its page tables. -/
def ForkRoom (s : Vm) (parent : Task) : Prop :=
  ([1, 1, bitmapPgCnt, 1].foldlM reserveBits s.kernelVaddr.vaddrMap).isSome = true →
    26 ≤ s.kernelPool.free → forkTables s parent + 26 ≤ s.kernelPool.free

/-- A directory with an empty user half has room for the pages when there is a frame for each page
table. -/
theorem room_of_fork_tables (huser : last.userPool = s.userPool)
    (h : forkTables s parent ≤ last.kernelPool.free) : Room last dir (forkPages parent) := by
  unfold Room missingTables forkTables at *
  rw [huser]
  exact (Finset.card_filter_le _ _).trans h

/-- A store to a kernel page that does not hold a page directory in use. -/
theorem Frames.store_kernel (h : Frames strict g s) {value : Nat} (hv : v / 4096 = n)
    (hpage : Freeable g n) :
    wp any (store v value) s fun _ last => Frames strict g last ∧
      last.kernelPool = s.kernelPool ∧ last.userPool = s.userPool ∧ last.cr3 = s.cr3 := by
  obtain ⟨o, ho, hmapped, hdir⟩ := hpage
  obtain ⟨x, hx⟩ := (h.owned n o ho).2.2 hmapped
  have hplain := h.plain_mapped hx fun p hp => hdir p (by simpa [ho] using hp)
  simp only [store, wp_bind, wp_frame_at, h.walk_mapped hv hx.1, Option.some.injEq,
    forall_eq', wp_store_word, and_any, and_true]
  exact h.write_page hplain _

/-- `build_child_stack` writes to the page of the control block only. -/
theorem Frames.build_child_stack (h : Frames strict g s) (task : Task)
    (haligned : child % 4096 = 0) (hpage : Freeable g (child / 4096)) :
    wp any (buildChildStack child task) s fun r last =>
      r = { task with selfKstack := intrStack child - 20 } ∧ Quiet s last ∧
      Frames strict g last := by
  refine wp_and (build_child_stack_task child task s)
    (wp_and (keeps_build_child_stack child task s) ?_)
  have hat : ∀ d ≤ 20, (intrStack child - d) / 4096 = child / 4096 := by
    intro d hd
    unfold intrStack
    omega
  have htop : (intrStack child + 32) / 4096 = child / 4096 := by
    unfold intrStack
    omega
  simp only [buildChildStack, wp_bind, wp_state]
  refine wp_mono (h.store_kernel htop hpage) fun _ s1 h1 => ?_
  refine wp_mono (h1.1.store_kernel (hat 4 (by decide)) hpage) fun _ s2 h2 => ?_
  refine wp_mono (h2.1.store_kernel (hat 8 (by decide)) hpage) fun _ s3 h3 => ?_
  refine wp_mono (h3.1.store_kernel (hat 12 (by decide)) hpage) fun _ s4 h4 => ?_
  refine wp_mono (h4.1.store_kernel (hat 16 (by decide)) hpage) fun _ s5 h5 => ?_
  exact wp_mono (h5.1.store_kernel (hat 20 (by decide)) hpage) fun _ _ h6 => h6.1

theorem update_inode_open_cnts_frames (thread : Task) : ∀ (count localFd : Nat) (s : Vm),
    Frames strict g s → wp any (updateInodeOpenCnts thread count localFd) s fun _ last =>
      last = { s with iOpenCnts := last.iOpenCnts } ∧ Frames strict g last := by
  intro count
  induction count with
  | zero => exact fun _ _ h => ⟨rfl, h⟩
  | succ count ih =>
    intro localFd s h
    simp only [updateInodeOpenCnts, wp_bind, wp_assert, wp_when, wp_access,
      wp_non_null, wp_update, and_any]
    refine fun _ => ⟨fun _ _ inode _ => ?_, fun _ => ih _ s h⟩
    refine wp_mono (ih _ _ (h.congr rfl rfl rfl rfl rfl)) ?_
    intro _ last hlast
    exact ⟨hlast.1, hlast.2⟩

/-- What became of the child of a fork. -/
structure ChildMade (strict : Prop) (g : Ghost) (s : Vm) (child : Nat) (parent task : Task)
    (g' : Ghost) (last : Vm) : Prop where
  frames : Frames strict g' last
  same : SameTasks s last
  owner : ∀ n o, g.owner n = some o → g'.owner n = some o
  use : ∀ f p n, g.use f = some (.user p n) → g'.use f = some (.user p n)
  others : ∀ q, q ≠ child →
    g'.dir q = g.dir q ∧ g'.dirPage q = g.dirPage q ∧ (g'.live q ↔ g.live q)
  holds : Holds g' s.mainThread child task
  live : g'.live child
  user : task.userprogVaddr = parent.userprogVaddr
  pages : strict → ∀ n ∈ forkPages parent, ∃ f, g'.use f = some (.user child n)

/-- The end of `copy_process`: the pages are copied, and the buffer is given back. -/
theorem Frames.copy_body (h : Frames strict g s) {q pcb : Nat} (child : Task) (buf : Nat)
    (haligned : pcb % 4096 = 0) (hpcb : Freeable g (pcb / 4096)) (hp : g.dir p = some s.cr3)
    (hparent : parent.pgdir = g.dirPage p * 4096) (huser : UserLayout parent) (hlive : g.live q)
    (hq : g.dir q = some dir) (hchild : child.pgdir = g.dirPage q * 4096)
    (hbuf : g.owner buf = some (.range (buf * 4096)))
    (hroom : strict → Room s dir (forkPages parent)) :
    wp any (do
      copyBodyStack3 child parent (buf * 4096) parent.userprogVaddr.vaddrMap.btmpBytesLen 0
      let child ← buildChildStack pcb child
      updateInodeOpenCnts child 5 3
      mfreePage .kernel (buf * 4096) 1
      pure (some child)) s fun r last => r = some { child with selfKstack := intrStack pcb - 20 } ∧
        SameTasks s last ∧ ∃ g', KeepsUsers g g' ∧ Frames strict g' last ∧
          g'.owner = (g.setOwner buf 1 none).owner ∧
          (strict → ∀ n ∈ forkPages parent, ∃ f, g'.use f = some (.user q n)) := by
  have hfree := freeable_of_owner hbuf (by simp) (by simp)
  rw [wp_bind, copy_body_stack3_eq]
  refine wp_mono (copy_list_spec _ g s h hp hparent huser.1 hlive hq hchild hfree ?_ hroom) ?_
  · intro idx hidx
    obtain ⟨k, hk, rfl⟩ := List.mem_range'.1 (List.mem_filter.1 hidx).1
    rw [huser.2, show userMapLen * 8 = 0xb7fb8 by decide] at hk
    omega
  · intro _ x ⟨hquietx, _, g1, hext, hx, hpages⟩
    have hkept : ∀ n, Freeable g n → Freeable g1 n := by
      intro n hn
      unfold Freeable at *
      rwa [hext.owner, hext.dir]
    have hfree1 : ∀ i < 1, Freeable g1 (buf + i) := by
      intro i hi
      obtain rfl : i = 0 := by omega
      exact hkept _ hfree
    refine wp_seq (hx.build_child_stack child haligned (hkept _ hpcb)) ?_
    intro r y hy
    obtain ⟨rfl, hquiety, hy⟩ := hy
    refine wp_seq (update_inode_open_cnts_frames _ 5 3 y hy) ?_
    intro _ mid hmid
    obtain ⟨heq, h1⟩ := hmid
    have hquiet : Quiet s mid := by
      refine IsTrans.trans _ _ _ (IsTrans.trans _ _ _ hquietx hquiety) ?_
      rw [heq]
      exact ⟨⟨rfl, rfl, rfl, rfl, rfl, rfl⟩, rfl, rfl⟩
    refine wp_seq (h1.mfree_page_kernel _ _ hfree1) ?_
    intro _ last ⟨hsame, _, _, g', hkeeps, h2, howner⟩
    refine ⟨rfl, hquiet.same_tasks.trans hsame, g', ?_, h2, ?_, ?_⟩
    · exact ⟨hkeeps.dir.trans hext.dir, hkeeps.dirPage.trans hext.dirPage,
        hkeeps.live.trans hext.live, fun f r n hf => hkeeps.use f r n (hext.use f _ hf)⟩
    · rw [howner]
      unfold Ghost.setOwner
      rw [hext.owner]
    · intro hs n hn
      obtain ⟨idx, hidx, rfl⟩ := List.mem_map.1 hn
      obtain ⟨f, hf⟩ := hpages hs idx hidx
      exact ⟨f, hkeeps.use f q _ hf⟩

/-- `copy_process` makes the address space of the child, or fails and leaves pages behind. -/
theorem Frames.copy_process (h : Frames strict g s) (child : Nat) (parent : Task)
    (hp : g.dir p = some s.cr3) (hparent : parent.pgdir = g.dirPage p * 4096)
    (huser : UserLayout parent) (hne : p ≠ child) (haligned : child % 4096 = 0)
    (hmain : child ≠ s.mainThread) (hpcb : g.owner (child / 4096) = some (.pcb child))
    (hdir : g.dir child = none)
    (hroom : strict → ∀ m2 m3 m4, reserveBits s.kernelVaddr.vaddrMap 1 = some m2 →
      reserveBits m2 bitmapPgCnt = some m3 → reserveBits m3 1 = some m4 → 25 ≤ s.kernelPool.free →
      forkTables s parent + 25 ≤ s.kernelPool.free) :
    wp any (copyProcess child parent) s fun r last =>
      (r = none → ∃ g', Grown strict g s g' last) ∧
      ∀ task, r = some task → ∃ g', ChildMade strict g s child parent task g' last := by
  refine wp_seq (h.take_pages 1 fun v => .range v) ?_
  intro r s1 ⟨g1, hgrown1, hserved1⟩
  cases r with
  | none => exact ⟨fun _ => ⟨g1, hgrown1⟩, by simp⟩
  | some buf =>
    obtain ⟨hbufal, hfree1, hbits1, hfresh1, howner1⟩ := hserved1 buf rfl
    refine wp_seq (hgrown1.frames.copy_pcb parent (hgrown1.grows.owner _ _ hpcb)) ?_
    intro r s2 ⟨g2, hgrown2, hserved2⟩
    have hgrown := hgrown1.trans hgrown2
    cases r with
    | none => exact ⟨fun _ => ⟨g2, hgrown⟩, by simp⟩
    | some task =>
      obtain ⟨⟨pid, bits, rfl⟩, hbitsal, hfree2, hbits2, hfresh2, howner2⟩ := hserved2 _ rfl
      have hdir2 : g2.dir child = none := by rw [hgrown.grows.dir, hdir]
      refine wp_seq (wp_and (hgrown2.frames.create_page_dir (fun _ => .dir child)
        fun v q hq => by
          obtain rfl : child = q := by simpa using hq
          exact hdir2) (create_page_dir_took s2)) ?_
      intro pgdir s3 ⟨⟨hsame3, hcr3, huser3, g3, hgrows3, h3, hserved3⟩, _, htook3⟩
      have hgrown3 := hgrown.trans (⟨hgrows3, h3, hsame3, hcr3, huser3⟩ : Grown strict g2 s2 g3 s3)
      rw [wp_ite]
      refine ⟨fun _ => ⟨fun _ => ⟨g3, hgrown3⟩, by simp⟩, fun hpgdir => ?_⟩
      obtain ⟨hpgal, hfree3, hfresh3, howner3, dir, hmap, hisdir, hempty⟩ := hserved3 hpgdir
      have hdir3 : g3.dir child = none := by rw [hgrows3.dir, hdir2]
      have h4 := h3.add_process hdir3 hisdir hmap howner3 hempty
      have hself : (g3.addDir child (pgdir / 4096) dir).dir child = some dir := by
        simp [Ghost.addDir]
      obtain ⟨hpdir, hppage, -⟩ := g3.add_dir_other (pgdir / 4096) dir p hne
      have hbody := h4.copy_body { childBlock parent pid bits with pgdir := pgdir } (buf / 4096)
        haligned
        (freeable_of_owner (hgrown3.grows.owner _ _ hpcb) (by simp) (by simp))
        (by rw [hpdir, hgrown3.grows.dir, hp, hgrown3.cr3])
        (by rw [hppage, hgrown3.grows.dirPage, hparent]) huser (.inr rfl)
        hself (by simp [Ghost.addDir]; omega) ?_ ?_
      · rw [show buf / 4096 * 4096 = buf by omega] at hbody
        refine wp_mono hbody ?_
        rintro _ last ⟨rfl, hsame4, g', hkeeps, h5, howner5, hpages⟩
        refine ⟨by simp, ?_⟩
        rintro _ ⟨⟩
        refine ⟨g', h5, hgrown3.same.trans hsame4, ?_, ?_, ?_, ?_, ?_, rfl, hpages⟩
        · intro n o ho
          rw [howner5, Ghost.set_owner_out]
          · exact hgrown3.grows.owner n o ho
          · intro hn
            have hnone := hfresh1 0 (by omega)
            rw [show buf / 4096 + 0 = n by omega, ho] at hnone
            simp at hnone
        · exact fun f r n hf => hkeeps.use f r n (hgrown3.grows.use f _ hf)
        · intro q hq
          obtain ⟨hqdir, hqpage, hqlive⟩ := g3.add_dir_other (pgdir / 4096) dir q hq
          rw [hkeeps.dir, hkeeps.dirPage, hkeeps.live, hqdir, hqpage, hqlive, hgrown3.grows.dir,
            hgrown3.grows.dirPage, hgrown3.grows.live]
          exact ⟨rfl, rfl, .rfl⟩
        · have hholds : Holds (g3.addDir child (pgdir / 4096) dir) s.mainThread child
              { childBlock parent pid bits with pgdir := pgdir } :=
            Ghost.add_dir_holds hmain haligned (hgrown3.grows.owner _ _ hpcb)
              (by simp only; omega) hpgdir huser (by simp) hbitsal
              fun i hi => hgrows3.owner _ _ (howner2 i hi)
          refine hholds.congr ?_ rfl .rfl id rfl
          refine ⟨hkeeps.dir, hkeeps.dirPage, hkeeps.live, fun n r ho => ?_⟩
          rw [howner5, Ghost.set_owner_out]
          intro hn
          rw [show n = buf / 4096 by omega] at ho
          have hrange : (g3.addDir child (pgdir / 4096) dir).owner (buf / 4096) =
              some (.range buf) := (hgrown2.grows.trans hgrows3).owner _ _ (howner1 0 (by omega))
          simp [hrange] at ho
        · rw [hkeeps.live]
          exact .inr rfl
      · rw [show buf / 4096 * 4096 = buf by omega]
        exact (hgrown2.grows.trans hgrows3).owner _ _ (howner1 0 (by omega))
      · intro hs
        refine room_of_fork_tables hgrown3.userPool ?_
        have hbound := hroom hs _ _ _ hbits1 hbits2 (htook3 hpgdir).reserve_bits
        have hpages : bitmapPgCnt = 23 := by decide
        omega

/-- What a fork leaves behind. -/
structure ForkMade (strict : Prop) (g : Ghost) (s : Vm) (parent : Task) (child : Nat) (g' : Ghost)
    (last : Vm) : Prop where
  kept : Kept strict (fun _ => False) g s g' last
  new : child ∉ s.threadAllList
  listed : child ∈ last.threadAllList
  live : g'.live child
  marks : MarksKept (fun q _ => q = child) s last
  user : ∃ task, last.tasks child = some task ∧ task.userprogVaddr = parent.userprogVaddr
  pages : strict → ∀ n ∈ forkPages parent, ∃ f, g'.use f = some (.user child n)
  space : parent.pgdir ≠ 0

/-- What a fork does to the invariants. -/
theorem sys_fork_spec (hf : Frames strict g s) (ht : TaskInv g s) (hcpu : OnCpu g s parent)
    (hroom : strict → parent.pgdir ≠ 0 → ForkRoom s parent) :
    wp any sysFork s fun r last =>
      (r = none → ∃ g', Grown strict g s g' last) ∧
      ∀ child pid, r = some (child, pid) → ∃ g', ForkMade strict g s parent child g' last := by
  simp only [sysFork, wp_bind, wp_running_thread, hcpu.block, of_some]
  refine wp_mono (hf.take_pages 1 fun v => .pcb v) ?_
  rintro r s1 ⟨g1, hgrown1, hserved1⟩
  cases r with
  | none => exact ⟨fun _ => ⟨g1, hgrown1⟩, by simp⟩
  | some child =>
    obtain ⟨haligned, hfree1, hbits1, hfresh1, howner1⟩ := hserved1 child rfl
    have hpcb := howner1 0 (by omega)
    have hheap := (hgrown1.frames.owned _ _ hpcb).1
    obtain ⟨hnew, hmain⟩ := ht.fresh (hfresh1 0 (by omega)) hheap
    simp only [wp_bind, wp_assert, decide_eq_true_eq, and_any]
    intro hpgdir
    obtain ⟨hin, hholds, -⟩ := hcpu.holds ht hpgdir
    obtain ⟨-, hpage, -, huser, -⟩ := hholds.space hpgdir
    have hcopy := hgrown1.frames.copy_process child parent
      (by rw [hgrown1.grows.dir, hgrown1.cr3]; exact hcpu.process hpgdir)
      (by rw [hgrown1.grows.dirPage, hpage]) huser (fun heq => hnew (heq ▸ hin)) haligned
      (by rwa [hgrown1.same.mainThread]) hpcb
      (by rw [hgrown1.grows.dir]; exact (ht.outside child hnew).1) ?_
    · refine wp_mono hcopy ?_
      rintro r s2 ⟨hnone, hsome⟩
      cases r with
      | none =>
        obtain ⟨g2, hgrown2⟩ := hnone rfl
        exact ⟨fun _ => ⟨g2, hgrown1.trans hgrown2⟩, by simp⟩
      | some task =>
        obtain ⟨g2, hmade⟩ := hsome task rfl
        simp only [wp_bind, wp_store_task]
        refine ⟨by simp, ?_⟩
        rintro _ _ ⟨⟩
        have ht1 := ht.of_shapes hgrown1.grows.keeps_tasks hgrown1.same.same_shapes
        have ht2 := ht1.add_task (by rwa [hgrown1.same.threadAllList])
          (by rwa [hgrown1.same.mainThread]) hmade.holds hmade.others hmade.owner
        have hsame := hgrown1.same.trans hmade.same
        refine ⟨g2, ⟨hmade.frames.congr rfl rfl rfl rfl rfl, ht2.congr ?_ ?_ ?_, ?_, ?_⟩, hnew, ?_,
          hmade.live, ?_, ⟨task, ?_, hmade.user⟩, hmade.pages, hpgdir⟩
        · rw [hmade.same.tasks]
        · rw [hmade.same.threadAllList]
        · exact hmade.same.mainThread
        · refine ⟨fun n v ho => hmade.owner n _ (hgrown1.grows.owner n _ ho),
            fun _ f p n _ hf => hmade.use f p n (hgrown1.grows.use f _ hf), fun p _ hp => ?_⟩
          by_cases hpc : p = child
          · rw [hpc]
            exact hmade.live
          · rw [(hmade.others p hpc).2.2, hgrown1.grows.live]
            exact hp
        · intro p hp _
          simp [hsame.threadAllList, hp]
        · simp
        · refine MarksKept.of_new (fun q hq => ?_) (by simp)
          simp [update_of_ne hq, hsame.tasks]
        · simp
    · intro hs m2 m3 m4 h2 h3 h4 hfree
      have hbound := hroom hs hpgdir ?_ (by omega)
      · have htables : forkTables s1 parent = forkTables s parent := by
          unfold forkTables
          rw [hgrown1.userPool]
        omega
      · simp [hbits1, h2, h3, h4]

/-! ## Exit -/

/-- A process hangs: it has given up its user half and its bitmap. -/
theorem TaskInv.hang (h : TaskInv g s) {task' : Task} (hp : p ∈ s.threadAllList)
    (htask : s.tasks p = some task) (hpgdir : task.pgdir ≠ 0) (hself : last.tasks p = some task')
    (hhang : task'.status = .hanging) (hspace : task'.pgdir = task.pgdir)
    (huser : UserLayout task → UserLayout task')
    (hothers : ∀ q, q ≠ p → (last.tasks q).map Task.kind = (s.tasks q).map Task.kind)
    (hlist : last.threadAllList = s.threadAllList) (hmain : last.mainThread = s.mainThread)
    (hdir : g'.dir = g.dir) (hpage : g'.dirPage = g.dirPage)
    (hlive : ∀ q, g'.live q ↔ g.live q ∧ q ≠ p)
    (hpcb : ∀ n q, g.owner n = some (.pcb q) → g'.owner n = some (.pcb q))
    (hbits : ∀ n q, q ≠ p → g.owner n = some (.bits q) → g'.owner n = some (.bits q)) :
    TaskInv g' last := by
  have hother : ∀ q qtask, q ≠ p → s.tasks q = some qtask →
      ∃ qtask', last.tasks q = some qtask' ∧ qtask'.kind = qtask.kind := by
    intro q qtask hq hqtask
    have hmap := hothers q hq
    rw [hqtask] at hmap
    simpa [Option.map_eq_some_iff] using hmap
  have hpholds : Holds g s.mainThread p task := by
    obtain ⟨task0, htask0, hholds⟩ := h.control p hp
    obtain rfl : task = task0 := by simpa [htask] using htask0
    exact hholds
  obtain ⟨hpmain, hppage, hpdir, hplayout, -⟩ := hpholds.space hpgdir
  refine ⟨hmain.trans h.mainAt, by rw [hlist]; exact h.nodup, ?_, ?_, ?_⟩
  · obtain ⟨mtask, hmtask, hmpgdir, hmstatus⟩ := h.main
    obtain ⟨mtask', hmtask', hkind⟩ := hother _ mtask hpmain.symm hmtask
    simp only [Task.kind, Prod.mk.injEq, decide_eq_decide] at hkind
    rw [hmain]
    exact ⟨mtask', hmtask', by rw [hkind.1, hmpgdir], fun heq => hmstatus (hkind.2.2.2.2.1 heq)⟩
  · intro q hq
    rw [hlist] at hq
    rw [hmain]
    by_cases hqp : q = p
    · subst hqp
      refine ⟨task', hself, ?_, fun hzero => absurd (hspace ▸ hzero) hpgdir, fun _ => ?_,
        fun _ hne => absurd hhang hne⟩
      · rcases hpholds.pcb with heq | ⟨haligned, howner⟩
        · exact .inl heq
        · exact .inr ⟨haligned, hpcb _ _ howner⟩
      · refine ⟨hpmain, by rw [hspace, hppage, hpage], by rwa [hdir], huser hplayout, ?_⟩
        simp [hlive, hhang]
    · obtain ⟨qtask, hqtask, hholds⟩ := h.control q hq
      obtain ⟨qtask', hqtask', hkind⟩ := hother q qtask hqp hqtask
      refine ⟨qtask', hqtask', ?_⟩
      have hholds' : Holds g' s.mainThread q qtask := by
        refine ⟨?_, ?_, ?_, ?_⟩
        · rcases hholds.pcb with heq | ⟨haligned, howner⟩
          · exact .inl heq
          · exact .inr ⟨haligned, hpcb _ _ howner⟩
        · rw [hdir, hlive]
          simpa [hqp] using hholds.thread
        · rw [hdir, hpage, hlive]
          simpa [hqp] using hholds.space
        · intro hne hstatus
          obtain ⟨haligned, howner⟩ := hholds.bits hne hstatus
          exact ⟨haligned, fun i hi => hbits _ _ hqp (howner i hi)⟩
      exact hholds'.of_kind ⟨rfl, rfl, rfl, fun _ _ _ => rfl⟩ hkind
  · intro q hq
    rw [hlist] at hq
    obtain ⟨hqdir, hqlive⟩ := h.outside q hq
    rw [hdir, hlive]
    exact ⟨hqdir, fun hl => hqlive hl.1⟩

theorem MarksKept.of_spaces {P : Nat → Nat → Prop} (h : SameSpaces s last) :
    MarksKept P s last := by
  intro q task htask
  have hmap := h q
  rw [htask] at hmap
  obtain ⟨task', htask', hspace⟩ := Option.map_eq_some_iff.1 hmap
  simp only [Task.space, Prod.mk.injEq] at hspace
  exact ⟨task', htask', fun j _ hbit => by rwa [hspace.2.1]⟩

/-- The control blocks after `init_adopt_a_child`. -/
def adopted (s : Vm) (pid : Int) : Vm :=
  { s with
    tasks := fun p =>
      if p ∈ s.threadAllList then
        (s.tasks p).map fun t => if t.parentPid = pid then { t with parentPid := 1 } else t
      else s.tasks p }

theorem adopted_get (s : Vm) (pid : Int) (h : s.tasks p = some task) :
    ∃ task', (adopted s pid).tasks p = some task' ∧ task'.kind = task.kind ∧
      task'.space = task.space := by
  simp only [adopted, h, Option.map_some]
  split
  · refine ⟨_, rfl, ?_⟩
    split <;> exact ⟨rfl, rfl⟩
  · exact ⟨task, rfl, rfl, rfl⟩

/-- Children that get another parent keep their address spaces. -/
theorem adopted_same (s : Vm) (pid : Int) :
    SameKinds s (adopted s pid) ∧ SameSpaces s (adopted s pid) := by
  constructor <;> intro q <;> cases h : s.tasks q with
  | none => simp [adopted, h]
  | some task =>
    obtain ⟨task', htask', hkind, hspace⟩ := adopted_get s pid h
    simp [htask', hkind, hspace]

/-- The parent that is woken up keeps its address space. -/
theorem wake_parent_spec (pid : Int) (s : Vm) : wp any (wakeParent pid) s fun _ last =>
      SameKinds s last ∧ SameSpaces s last ∧ last = { s with tasks := last.tasks } := by
  simp only [wakeParent, wp_bind, wp_state, wp_non_null, and_any, and_true, wp_when, wp_store_task]
  intro parent _ task htask
  refine ⟨fun hwaiting => ⟨.store htask ?_, .store htask rfl⟩,
    fun _ => ⟨.of_tasks rfl, .of_tasks rfl⟩⟩
  simp [Task.kind, hwaiting]

/-- `release_prog_resource` of the running process. -/
theorem Frames.release_prog_resource (hf : Frames strict g s) (hlive : g.live p)
    (hdir : g.dir p = some s.cr3) (hpgdir : task.pgdir = g.dirPage p * 4096)
    (huser : UserLayout task) (haligned : task.bitsAddr % 4096 = 0)
    (hbits : ∀ i < bitmapPgCnt, g.owner (task.bitsAddr / 4096 + i) = some (.bits p)) :
    wp ok (releaseProgResource task) s fun _ last =>
      SameTasks s last ∧ ∃ g', Frames strict g' last ∧ g'.dir = g.dir ∧ g'.dirPage = g.dirPage ∧
        (∀ q, g'.live q ↔ g.live q ∧ q ≠ p) ∧
        (∀ n o, g.owner n = some o → o ≠ .bits p → g'.owner n = some o) ∧
        (strict → ∀ f q n, q ≠ p → g.use f = some (.user q n) → g'.use f = some (.user q n)) := by
  obtain ⟨-, -, hmap, -⟩ := hf.dirs p _ hdir
  rw [releaseProgResource, wp_bind, hpgdir]
  refine wp_mono (release_tables_spec 768 0 _ s (hf.drop_live p) rfl hmap
    (hf.unused_of_drop hlive hdir) (by omega)) ?_
  rintro _ mid ⟨hpools, g1, hshrinks, h1⟩
  have hlen : task.userprogVaddr.vaddrMap.btmpBytesLen / 4096 = 22 := by
    rw [huser.2]
    decide
  have hcnt : bitmapPgCnt = 23 := by decide
  rw [hlen, show task.bitsAddr = task.bitsAddr / 4096 * 4096 by omega]
  have howner1 : g1.owner = g.owner := hshrinks.owner
  refine wp_mono (h1.wp_mfree_page_kernel ok (task.bitsAddr / 4096) (by decide)
    fun i hi => freeable_of_owner (o := .bits p) ?_ (by simp) (by simp)) ?_
  · rw [howner1]
    exact hbits i (by omega)
  · rintro _ last ⟨⟨hsame, _, _, g', hkeeps, h2, howner⟩, _⟩
    refine ⟨hpools.quiet.same_tasks.trans hsame, g', h2, hkeeps.dir.trans hshrinks.dir,
      hkeeps.dirPage.trans hshrinks.dirPage, ?_, ?_, ?_⟩
    · intro q
      rw [hkeeps.live, hshrinks.live]
    · intro n o ho hne
      rw [howner, Ghost.set_owner_out, howner1, ho]
      rintro ⟨hlo, hhi⟩
      have hfreed := hbits (n - task.bitsAddr / 4096) (by omega)
      rw [show task.bitsAddr / 4096 + (n - task.bitsAddr / 4096) = n by omega, ho] at hfreed
      exact hne (by simpa using hfreed)
    · intro hs f q n hq hf'
      refine hkeeps.use f q n (hshrinks.same hs f _
        (Ghost.use_without_eq_some.2 ⟨hf', ?_, by simp⟩))
      intro m
      simp [hq]

/-- What an exit does to the invariants. -/
theorem sys_exit_spec (hf : Frames strict g s) (ht : TaskInv g s) (hcpu : OnCpu g s task)
    (hpgdir : task.pgdir ≠ 0) :
    wp any sysExit s fun _ last =>
      ∃ g', Kept strict (· = s.cur) g s g' last ∧ MarksKept (fun _ _ => False) s last := by
  obtain ⟨hin, hholds, hlive⟩ := hcpu.holds ht hpgdir
  obtain ⟨-, hpage, -, huser, -⟩ := hholds.space hpgdir
  obtain ⟨haligned, hbits⟩ := hholds.bits hpgdir hcpu.running
  simp only [sysExit, adoptChildren, wp_bind, wp_running_thread, hcpu.block,
    Option.some.injEq, forall_eq', wp_update, wp_assert, and_any]
  rintro -
  have hf0 : Frames strict g (adopted s task.pid) := hf.congr rfl rfl rfl rfl rfl
  obtain ⟨hkinds0, hspaces0⟩ := adopted_same s task.pid
  refine wp_mono (hf0.release_prog_resource hlive (hcpu.process hpgdir) hpage huser haligned
    hbits) ?_
  rintro _ s1 ⟨hsame1, g', hf1, hdir, hdirPage, hlive', howner, huse⟩ task1 htask1
  refine wp_mono (wake_parent_spec task1.parentPid s1) ?_
  rintro _ s2 ⟨hkinds2, hspaces2, hs2⟩ task2 htask2
  have hkinds : SameKinds s s2 := (hkinds0.trans (.of_tasks hsame1.tasks)).trans hkinds2
  have hspaces : SameSpaces s s2 := (hspaces0.trans (.of_tasks hsame1.tasks)).trans hspaces2
  have hcur : s2.cur = s.cur := by rw [hs2]; exact hsame1.cur
  have hlist : s2.threadAllList = s.threadAllList := by rw [hs2]; exact hsame1.threadAllList
  have hmain : s2.mainThread = s.mainThread := by rw [hs2]; exact hsame1.mainThread
  have hkind : task2.kind = task.kind := by
    obtain ⟨task', htask', hkind⟩ := hkinds.get hcpu.block
    rw [hcur] at htask2
    obtain rfl : task2 = task' := by simpa [htask2] using htask'
    exact hkind
  simp only [Task.kind, Prod.mk.injEq] at hkind
  have hf2 : Frames strict g' s2 := by
    rw [hs2]
    exact hf1.congr rfl rfl rfl rfl rfl
  refine ⟨g', ⟨hf2.congr rfl rfl rfl rfl rfl, ?_, ⟨?_, ?_, ?_⟩, ?_⟩, ?_⟩
  · have hself : update s2.tasks s2.cur (some { task2 with status := .hanging }) s.cur =
        some { task2 with status := .hanging } := by
      rw [hcur, update_self]
    refine ht.hang hin hcpu.block hpgdir hself rfl hkind.1 ?_ ?_ hlist hmain hdir
      hdirPage hlive' ?_ ?_
    · rintro ⟨hstart, hlen⟩
      exact ⟨hkind.2.1.trans hstart, hkind.2.2.1.trans hlen⟩
    · intro q hq
      simp only [hcur, update_of_ne hq]
      exact hkinds q
    · exact fun n q ho => howner n _ ho (by simp)
    · exact fun n q hq ho => howner n _ ho (by simpa using hq)
  · exact fun n v ho => howner n _ ho (by simp)
  · exact fun hs f q n hq hf' => huse hs f q n hq hf'
  · exact fun q hq hl => (hlive' q).2 ⟨hl, hq⟩
  · intro q hq _
    rwa [hlist]
  · exact .of_spaces (hspaces.trans (.store htask2 rfl))

/-! ## Wait -/

theorem TaskInv.remove (h : TaskInv g s) (hmain : p ≠ s.mainThread)
    (htasks : ∀ q, q ≠ p → last.tasks q = s.tasks q)
    (hlist : last.threadAllList = s.threadAllList.erase p)
    (hmainThread : last.mainThread = s.mainThread) (hdir : g'.dir = update g.dir p none)
    (hpage : g'.dirPage = g.dirPage) (hlive : g'.live = g.live) (hplive : ¬g.live p)
    (howner : ∀ n o, g.owner n = some o → o ≠ .pcb p → o ≠ .dir p → g'.owner n = some o) :
    TaskInv g' last := by
  have hmem : ∀ q, q ∈ last.threadAllList ↔ q ≠ p ∧ q ∈ s.threadAllList := by
    intro q
    rw [hlist, h.nodup.mem_erase_iff]
  refine ⟨hmainThread.trans h.mainAt, ?_, ?_, ?_, ?_⟩
  · rw [hlist]
    exact h.nodup.erase p
  · rw [hmainThread, htasks _ hmain.symm]
    exact h.main
  · intro q hq
    obtain ⟨hqp, hin⟩ := (hmem q).1 hq
    obtain ⟨task, htask, hholds⟩ := h.control q hin
    rw [hmainThread, htasks q hqp]
    refine ⟨task, htask, ?_, ?_, ?_, ?_⟩
    · rcases hholds.pcb with heq | ⟨haligned, hpcb⟩
      · exact .inl heq
      · exact .inr ⟨haligned, howner _ _ hpcb (by simpa using hqp) (by simp)⟩
    · rw [hdir, hlive, update_of_ne hqp]
      exact hholds.thread
    · rw [hdir, hpage, hlive, update_of_ne hqp]
      exact hholds.space
    · intro hne hstatus
      obtain ⟨haligned, hbits⟩ := hholds.bits hne hstatus
      exact ⟨haligned, fun i hi => howner _ _ (hbits i hi) (by simp) (by simp)⟩
  · intro q hq
    rw [hmem] at hq
    rw [hdir, hlive]
    by_cases hqp : q = p
    · subst hqp
      exact ⟨update_self _ _ _, hplive⟩
    · rw [update_of_ne hqp]
      exact h.outside q fun hin => hq ⟨hqp, hin⟩

/-- `thread_exit` of a process that hangs, by another thread. -/
theorem thread_exit_spec (hf : Frames strict g s) (ht : TaskInv g s) (hp : p ∈ s.threadAllList)
    (htask : s.tasks p = some task) (hhang : task.status = .hanging) (hcr3 : g.dir p ≠ some s.cr3) :
    wp ok (threadExit p) s fun _ last =>
      ∃ g', Kept strict (· = p) g s g' last ∧ MarksKept (fun _ _ => False) s last := by
  have hholds : Holds g s.mainThread p task := by
    obtain ⟨task0, htask0, hholds⟩ := ht.control p hp
    obtain rfl : task = task0 := by simpa [htask] using htask0
    exact hholds
  have hpgdir : task.pgdir ≠ 0 := fun hzero => (hholds.thread hzero).2.2 hhang
  obtain ⟨hmain, hpage, hdir, -, hlive⟩ := hholds.space hpgdir
  have hplive : ¬g.live p := fun hl => hlive.1 hl hhang
  obtain ⟨dir, hdir⟩ := Option.ne_none_iff_exists'.1 hdir
  obtain ⟨-, howner, -⟩ := hf.dirs p dir hdir
  obtain ⟨haligned, hpcb⟩ := hholds.pcb.resolve_left hmain
  simp only [threadExit, wp_bind, wp_state, htask, wp_non_null, of_some, wp_store_task, wp_update]
  rw [wp_when]
  refine ⟨fun _ => ?_, fun hnot => absurd hpgdir hnot⟩
  have hf1 : Frames strict { g with dir := update g.dir p none } { s with
      tasks := update s.tasks p (some { task with status := .died }) } :=
    (hf.drop_dir hplive hcr3).congr rfl rfl rfl rfl rfl
  have hpagefree := hf1.wp_mfree_page_kernel ok (g.dirPage p) (show 0 < 1 by decide) fun i hi => by
    obtain rfl : i = 0 := by omega
    refine ⟨.dir p, howner, by simp, fun q hq => ?_⟩
    obtain rfl : p = q := by simpa using hq
    exact update_self _ _ _
  rw [← hpage] at hpagefree
  refine wp_mono hpagefree ?_
  rintro _ s1 ⟨⟨hsame1, _, _, g1, hkeeps1, h1, howner1⟩, _⟩
  rw [wp_when]
  refine ⟨fun _ => ?_, fun hnot => absurd hmain hnot⟩
  have hpcb1 : g1.owner (p / 4096) = some (.pcb p) := by
    rw [howner1, Ghost.set_owner_out]
    · exact hpcb
    · intro hin
      rw [show p / 4096 = g.dirPage p by omega, howner] at hpcb
      simp at hpcb
  have h1' : Frames strict g1 { s1 with threadAllList := s1.threadAllList.erase p } :=
    h1.congr rfl rfl rfl rfl rfl
  have hpcbfree := h1'.wp_mfree_page_kernel ok (p / 4096) (show 0 < 1 by decide) fun i hi => by
    obtain rfl : i = 0 := by omega
    exact freeable_of_owner hpcb1 (by simp) (by simp)
  rw [show p / 4096 * 4096 = p by omega] at hpcbfree
  refine wp_mono hpcbfree ?_
  rintro _ last ⟨⟨hsame2, _, _, g2, hkeeps2, h2, howner2⟩, _⟩
  have htasks : last.tasks = update s.tasks p (some { task with status := .died }) :=
    hsame2.tasks.trans hsame1.tasks
  have howners : ∀ n o, g.owner n = some o → o ≠ .pcb p → o ≠ .dir p → g2.owner n = some o := by
    intro n o ho hnpcb hndir
    rw [howner2, Ghost.set_owner_out, howner1, Ghost.set_owner_out]
    · exact ho
    · intro hn
      rw [show n = g.dirPage p by omega, howner] at ho
      exact hndir (by simpa using ho.symm)
    · intro hn
      rw [show n = p / 4096 by omega, hpcb] at ho
      exact hnpcb (by simpa using ho.symm)
  have hlist : last.threadAllList = s.threadAllList.erase p := by
    rw [hsame2.threadAllList, hsame1.threadAllList]
  refine ⟨g2, ⟨h2, ht.remove hmain (fun q hq => by rw [htasks, update_of_ne hq]) hlist
    (hsame2.mainThread.trans hsame1.mainThread) (hkeeps2.dir.trans hkeeps1.dir)
    (hkeeps2.dirPage.trans hkeeps1.dirPage) (hkeeps2.live.trans hkeeps1.live) hplive howners,
    ⟨fun n v ho => howners n _ ho (by simp) (by simp), ?_, ?_⟩, ?_⟩, ?_⟩
  · exact fun _ f q n _ hf' => hkeeps2.use f q n (hkeeps1.use f q n hf')
  · intro q _ hl
    rwa [hkeeps2.live, hkeeps1.live]
  · intro q hq hqp
    rw [hlist, ht.nodup.mem_erase_iff]
    exact ⟨hqp, hq⟩
  · have hstore : MarksKept (fun _ _ => False) s { s with
        tasks := update s.tasks p (some { task with status := .died }) } :=
      .store htask fun _ _ => id
    exact hstore.trans (.of_tasks htasks)

theorem OnCpu.dir_ne {child : Task} (hcpu : OnCpu g s task) (hf : Frames strict g s)
    (htask : s.tasks p = some child) (hhang : child.status = .hanging) : g.dir p ≠ some s.cr3 := by
  intro hdir
  by_cases hpgdir : task.pgdir = 0
  · have hframe := hf.dir_frame hdir
    rw [hcpu.thread hpgdir] at hframe
    exact absurd hframe.1 (by decide)
  · obtain rfl := hf.dir_inj hdir (hcpu.process hpgdir)
    obtain rfl : task = child := by simpa [hcpu.block] using htask
    exact hcpu.running hhang

/-- `sys_wait`. The child that is reaped is gone. -/
theorem sys_wait_spec (hf : Frames strict g s) (ht : TaskInv g s) (hcpu : OnCpu g s task) :
    wp any sysWait s fun _ last =>
      ∃ g' gone, Kept strict gone g s g' last ∧ (∀ p, gone p → ¬g.live p) ∧
        MarksKept (fun _ _ => False) s last := by
  simp only [sysWait, wp_bind, wp_running_thread, hcpu.block, of_some, wp_state]
  cases hfind : s.threadAllList.find? fun p => (s.tasks p).any fun t =>
      t.parentPid == task.pid && t.status == .hanging with
  | some child =>
    have hin := List.mem_of_find?_eq_some hfind
    have hcond := List.find?_some hfind
    obtain ⟨ctask, hctask, hholds⟩ := ht.control child hin
    have hhang : ctask.status = .hanging := by
      simpa [hctask] using (by simpa [hctask] using hcond : _ ∧ _).2
    simp only [wp_bind, wp_non_null, hctask, of_some]
    -- the running thread does not hang, so it runs in another address space
    refine wp_mono (thread_exit_spec hf ht hin hctask hhang (hcpu.dir_ne hf hctask hhang)) ?_
    rintro _ last ⟨g', hkept, hmarks⟩
    refine ⟨g', (· = child), hkept, ?_, hmarks⟩
    rintro _ rfl hl
    have hpgdir : ctask.pgdir ≠ 0 := fun hzero => (hholds.thread hzero).2.2 hhang
    exact ((hholds.space hpgdir).2.2.2.2.1 hl) hhang
  | none =>
    have hsame : Kept strict (fun _ => False) g s g s :=
      ⟨hf, ht, (Extends.refl g).grows.keeps_ranges _, fun _ hp _ => hp⟩
    simp only [wp_ite]
    refine ⟨fun _ => ⟨g, fun _ => False, ⟨hf.congr rfl rfl rfl rfl rfl, ?_, hsame.ranges,
      hsame.list⟩, by simp, .store hcpu.block fun _ _ => id⟩, fun _ => ⟨g, fun _ => False, hsame,
      by simp, .of_tasks rfl⟩⟩
    refine ht.of_kinds ⟨rfl, rfl, rfl, fun _ _ _ => rfl⟩ (.store hcpu.block ?_) rfl rfl
    simp [Task.kind, hcpu.running]

end LosKernel.Mm
