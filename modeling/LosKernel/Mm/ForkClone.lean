import LosKernel.Mm.ForkReturns
import LosKernel.Mm.Sharing
import LosKernel.Mm.Starting

/-!
# The child of a fork

`fork_clones_iff` says what `sys_fork` gives when there is memory for it: a child with the same
user pages, the same open files and the same registers but for `eax`. It holds when every
descriptor is closed or refers to an open file. Another kind arises when a child closes a file
that both have open: the next fork of its parent follows a null pointer.
-/

namespace LosKernel.Mm

open Prog hiding update
open Function (update update_of_ne update_self)

variable {task parent : Task} {n x child dir xp v p : Nat} {ok : Stop → Prop} {words : Nat → Nat}
  {strict : Prop} {g : Ghost} {s last : Vm}

/-! ## The first switch to a thread -/

/-- The registers that a return to user mode loads. -/
structure Registers where
  edi : Nat
  esi : Nat
  ebp : Nat
  ebx : Nat
  edx : Nat
  ecx : Nat
  eax : Nat
  gs : Nat
  fs : Nat
  es : Nat
  ds : Nat
  eip : Nat
  cs : Nat
  eflags : Nat
  esp : Nat
  ss : Nat
  deriving DecidableEq, Repr

/-- The part of `switch_to` that runs on the stack of the next thread: four registers are popped,
and `ret` takes the return address. -/
def switchIn (next : Task) : Call (Nat × Nat) := do
  let esp := next.selfKstack
  let _ebp ← load esp
  let _ebx ← load (esp + 4)
  let _edi ← load (esp + 8)
  let _esi ← load (esp + 12)
  let eip ← load (esp + 16)
  pure (eip, esp + 20)

/-- `intr_exit`, `none` for a return to the kernel. `popad` does not load the stack pointer, and
`iretd` loads it from a frame that was pushed in user mode only. -/
def runIntrExit (esp : Nat) : Call (Option Registers) := do
  let edi ← load (esp + 4)
  let esi ← load (esp + 8)
  let ebp ← load (esp + 12)
  let ebx ← load (esp + 20)
  let edx ← load (esp + 24)
  let ecx ← load (esp + 28)
  let eax ← load (esp + 32)
  let gs ← load (esp + 36)
  let fs ← load (esp + 40)
  let es ← load (esp + 44)
  let ds ← load (esp + 48)
  let eip ← load (esp + 56)
  let cs ← load (esp + 60)
  let eflags ← load (esp + 64)
  if cs % 4 = 3 then
    let userEsp ← load (esp + 68)
    let ss ← load (esp + 72)
    pure (some ⟨edi, esi, ebp, ebx, edx, ecx, eax, gs, fs, es, ds, eip, cs, eflags, userEsp, ss⟩)
  else
    pure none

/-- `schedule` switches to thread `p`, whose stack says that it returns to `intr_exit`; `none` if
the thread goes on elsewhere. -/
def resume (p : Nat) : Call (Option Registers) := do
  switchTo p
  let next ← runningThread
  let (eip, esp) ← switchIn next
  let s ← state
  if eip = s.intrExit then runIntrExit esp else pure none

/-- The registers in the frame that an interrupt from user mode leaves at the end of the page of a
control block. -/
def intrFrame (words : Nat → Nat) : Registers where
  edi := words 1006
  esi := words 1007
  ebp := words 1008
  ebx := words 1010
  edx := words 1011
  ecx := words 1012
  eax := words 1013
  gs := words 1014
  fs := words 1015
  es := words 1016
  ds := words 1017
  eip := words 1019
  cs := words 1020
  eflags := words 1021
  esp := words 1022
  ss := words 1023

theorem Frames.wp_load_page (h : Frames strict g s) (hmap : KernelMap s.mem n x) (i : Nat)
    (hi : i < 1024) (hv : v = n * 4096 + 4 * i) {Q : Nat → Vm → Prop} :
    wp ok (load v) s Q ↔ Q (s.mem x i) s := by
  have hwalk : walk s.mem s.cr3 v = some x := h.walk_mapped (by omega) hmap
  have hword : v % 4096 / 4 = i := by omega
  simp [load, hwalk, hword]

/-- The stack that `build_child_stack` built leads to `intr_exit`, and from there to user mode. -/
theorem Frames.wp_switch_in (h : Frames strict g s) (hmap : KernelMap s.mem n x)
    (hstack : task.selfKstack = n * 4096 + 4000) {Q : Nat × Nat → Vm → Prop} :
    wp ok (switchIn task) s Q ↔ Q (s.mem x 1004, n * 4096 + 4020) s := by
  simp only [switchIn, wp_bind, wp_pure, hstack]
  rw [h.wp_load_page hmap 1000 (by decide) (by omega),
    h.wp_load_page hmap 1001 (by decide) (by omega),
    h.wp_load_page hmap 1002 (by decide) (by omega),
    h.wp_load_page hmap 1003 (by decide) (by omega),
    h.wp_load_page hmap 1004 (by decide) (by omega)]

theorem Frames.wp_run_intr_exit (h : Frames strict g s) (hmap : KernelMap s.mem n x)
    (huser : (intrFrame (s.mem x)).cs % 4 = 3) {Q : Option Registers → Vm → Prop} :
    wp ok (runIntrExit (n * 4096 + 4020)) s Q ↔ Q (some (intrFrame (s.mem x))) s := by
  have hcs : s.mem x 1020 % 4 = 3 := huser
  have hload : ∀ (i : Nat), i < 1024 → ∀ v, v = n * 4096 + 4 * i → ∀ {Q : Nat → Vm → Prop},
      wp ok (load v) s Q ↔ Q (s.mem x i) s :=
    fun i hi v hv _ => h.wp_load_page hmap i hi hv
  simp only [runIntrExit, wp_bind]
  rw [hload 1006 (by decide) _ (by omega), hload 1007 (by decide) _ (by omega),
    hload 1008 (by decide) _ (by omega), hload 1010 (by decide) _ (by omega),
    hload 1011 (by decide) _ (by omega), hload 1012 (by decide) _ (by omega),
    hload 1013 (by decide) _ (by omega), hload 1014 (by decide) _ (by omega),
    hload 1015 (by decide) _ (by omega), hload 1016 (by decide) _ (by omega),
    hload 1017 (by decide) _ (by omega), hload 1019 (by decide) _ (by omega),
    hload 1020 (by decide) _ (by omega), hload 1021 (by decide) _ (by omega), if_pos hcs, wp_bind,
    hload 1022 (by decide) _ (by omega), wp_bind, hload 1023 (by decide) _ (by omega)]
  rfl

/-! ## What a fork is for -/

/-- Address spaces and control blocks fit together, as in every state that a booted system reaches
by requests for which there are frames for the page tables. -/
def SpacesOk (s : Vm) : Prop := ∃ g, Frames True g s ∧ TaskInv g s

/-- The running thread is a process, and `parent` is its control block. -/
structure RunningProcess (s : Vm) (parent : Task) : Prop where
  block : s.tasks s.cur = some parent
  space : UserSpace s s.cur s.cr3

/-- The bitmap of the virtual pages of the running process marks the pages that are mapped. -/
def MarksMapped (s : Vm) (task : Task) : Prop :=
  ∀ n < 0xc0000, (walk s.mem s.cr3 (n * 4096)).isSome = true ↔
    0x8048 ≤ n ∧ bitmapScanTest task.userprogVaddr.vaddrMap (n - 0x8048) = true

/-- Nothing has happened to a thread between its creation in `last` and the first switch to it:
other threads ran, but its control block and the page with its stack are as they were. -/
structure Untouched (child : Nat) (task : Task) (last later : Vm) : Prop where
  ok : SpacesOk later
  listed : child ∈ later.threadAllList
  block : ∃ task', later.tasks child = some task' ∧ task'.selfKstack = task.selfKstack ∧
    task'.pgdir = task.pgdir
  page : ∀ x, walk last.mem kernelDir child = some x →
    ∃ y, walk later.mem kernelDir child = some y ∧ later.mem y = last.mem x
  intrExit : later.intrExit = last.intrExit

/-- The first switch to a thread takes it to user mode with the given registers and in its own
address space. -/
def Resumes (child : Nat) (task : Task) (regs : Registers) (last : Vm) : Prop :=
  ∀ later, Untouched child task last later → ∃ final, resume child later = .done (some regs) final ∧
    final.cur = child ∧ walk later.mem kernelDir task.pgdir = some final.cr3

/-- Process `child` is a clone of the process that runs in `s`. -/
structure Cloned (s : Vm) (parent : Task) (child : Nat) (task : Task) (dir : Nat) (last : Vm) :
    Prop where
  block : last.tasks child = some task
  space : UserSpace last child dir
  pages : ∀ n < 0xc0000,
    (walk last.mem dir (n * 4096)).isSome = (walk s.mem s.cr3 (n * 4096)).isSome
  words : ∀ n < 0xc0000, ∀ f fp, walk last.mem dir (n * 4096) = some f →
    walk s.mem s.cr3 (n * 4096) = some fp → last.mem f = s.mem fp
  apart : ∀ q n m f, (Place.user child n).MapsTo last f → (Place.user q m).MapsTo last f → q = child
  parentSpace : UserSpace last s.cur s.cr3 ∧ last.cr3 = s.cr3
  parentTables : last.mem s.cr3 = s.mem s.cr3 ∧ ∀ i t, TableAt s.mem s.cr3 i t →
    last.mem t = s.mem t
  parentWords : ∀ n < 0xc0000, ∀ f, walk s.mem s.cr3 (n * 4096) = some f → last.mem f = s.mem f
  marks : task.userprogVaddr = parent.userprogVaddr
  bitmap : ∀ i < bitmapPgCnt, ∃ x y,
    walk last.mem kernelDir (task.bitsAddr + i * 4096) = some x ∧
    walk last.mem kernelDir (parent.bitsAddr + i * 4096) = some y ∧ x ≠ y ∧
    last.mem x = s.mem y ∧ last.mem y = s.mem y
  files : task.fdTable = parent.fdTable
  cwd : task.cwdInodeNr = parent.cwdInodeNr
  registers : ∀ xp, walk s.mem s.cr3 s.cur = some xp → (intrFrame (s.mem xp)).cs % 4 = 3 →
    Resumes child task { intrFrame (s.mem xp) with eax := 0 } last

/-- In terms of the ghost, the running process is on the processor. -/
theorem RunningProcess.on_cpu (h : RunningProcess s parent) (ht : TaskInv g s)
    (hf : Frames strict g s) : OnCpu g s parent ∧ parent.pgdir ≠ 0 := by
  obtain ⟨hin, task, htask, hstatus, hpgdir, hwalk⟩ := h.space
  obtain rfl : parent = task := by simpa [h.block] using htask
  obtain ⟨dir, hdir, hwalk', -⟩ := ht.dir_of_process hf hin htask hpgdir
  obtain rfl : s.cr3 = dir := by simpa [hwalk] using hwalk'
  exact ⟨⟨htask, .inl hin, hstatus, fun hzero => absurd hzero hpgdir, fun _ => hdir⟩, hpgdir⟩

/-! ## The first run of the child -/

/-- The kernel finds its pages in every address space, its own among them. -/
theorem Frames.walk_kernel (h : Frames strict g s) {f : Nat} (hv : v / 4096 = n)
    (hmap : KernelMap s.mem n f) : walk s.mem kernelDir v = some f := by
  have hkernel : Frames strict g { s with cr3 := kernelDir } := h.set_cr3 (.inl rfl)
  exact hkernel.walk_mapped hv hmap

/-- A thread with the stack that `build_child_stack` built returns to user mode. -/
theorem resume_returns (hf : Frames strict g s) (ht : TaskInv g s) (hin : child ∈ s.threadAllList)
    (htask : s.tasks child = some task) (hpgdir : task.pgdir ≠ 0)
    (hstack : task.selfKstack = child + 4000) (hpage : walk s.mem kernelDir child = some x)
    (hwords : s.mem x = childStack s.intrExit words) (huser : (intrFrame words).cs % 4 = 3) :
    wp never (resume child) s fun r final =>
      r = some { intrFrame words with eax := 0 } ∧ final.cur = child ∧
        walk s.mem kernelDir task.pgdir = some final.cr3 := by
  obtain ⟨task', htask', hholds⟩ := ht.control child hin
  obtain rfl : task = task' := by simpa [htask] using htask'
  obtain ⟨hmain, hspace, hdir, -⟩ := hholds.space hpgdir
  obtain ⟨haligned, hpcb⟩ := hholds.pcb.resolve_left hmain
  obtain ⟨dir, hdir⟩ := Option.ne_none_iff_exists'.1 hdir
  obtain ⟨-, -, hdirmap, -⟩ := hf.dirs child dir hdir
  -- the page of the control block
  obtain ⟨y, hy⟩ := (hf.owned _ _ hpcb).2.2 (by simp)
  obtain rfl : y = x := by simpa [hf.walk_kernel rfl hy.1] using hpage
  rw [resume, wp_bind]
  refine wp_switch_to_process hf ht hin htask hdir fun h2 => ?_
  have hframe : intrFrame (s.mem y) = { intrFrame words with eax := 0 } := by
    simp [hwords, intrFrame, childStack]
  have hexit : s.mem y 1004 = s.intrExit := by
    rw [hwords]
    rfl
  have hstack' : task.selfKstack = child / 4096 * 4096 + 4000 := by omega
  simp only [wp_bind, wp_state, wp_running_thread, htask, of_some]
  rw [h2.wp_switch_in hy.1 hstack', hexit, if_pos rfl, h2.wp_run_intr_exit hy.1 ?_]
  · exact ⟨by rw [hframe], rfl, hf.walk_kernel (by omega) hdirmap⟩
  · rw [hframe]
    exact huser

theorem Untouched.resumes {xc : Nat} {later : Vm} (h : Untouched child task last later)
    (hpgdir : task.pgdir ≠ 0) (hstack : task.selfKstack = child + 4000)
    (hpage : walk last.mem kernelDir child = some xc)
    (hwords : last.mem xc = childStack last.intrExit words) (huser : (intrFrame words).cs % 4 = 3) :
    ∃ final, resume child later = .done (some { intrFrame words with eax := 0 }) final ∧
      final.cur = child ∧ walk later.mem kernelDir task.pgdir = some final.cr3 := by
  obtain ⟨g2, hf2, ht2⟩ := h.ok
  obtain ⟨task', htask', hstack', hpgdir'⟩ := h.block
  obtain ⟨y, hy, hsame⟩ := h.page xc hpage
  rw [← hpgdir'] at hpgdir
  rw [← hstack'] at hstack
  rw [hwords, ← h.intrExit] at hsame
  obtain ⟨r, final, hdone, rfl, hcur, hdir⟩ := wp_never_iff.1
    (resume_returns hf2 ht2 h.listed htask' hpgdir hstack hy hsame huser)
  exact ⟨final, hdone, hcur, by rwa [← hpgdir']⟩

/-! ## The clone -/

/-- The running process maps the pages that a fork copies. -/
theorem MarksMapped.mem_fork_pages (h : MarksMapped s parent) (huser : UserLayout parent) :
    n ∈ forkPages parent ↔ n < 0xc0000 ∧ (walk s.mem s.cr3 (n * 4096)).isSome = true := by
  rw [Mm.mem_fork_pages huser]
  refine and_congr_right fun hn => ?_
  rw [h n hn]

/-- The address space of the child is that of the parent. -/
theorem MarksMapped.same_pages (hmarks : MarksMapped s parent) (huser : UserLayout parent)
    (hpages : ∀ n ∈ forkPages parent, ∃ fp f, UserMap s.mem s.cr3 n fp ∧
      UserMap last.mem dir n f ∧ last.mem f = s.mem fp)
    (hothers : ∀ n, n ∉ forkPages parent → ∀ f, ¬UserMap last.mem dir n f) :
    (∀ n < 0xc0000,
      (walk last.mem dir (n * 4096)).isSome = (walk s.mem s.cr3 (n * 4096)).isSome) ∧
    ∀ n < 0xc0000, ∀ f fp, walk last.mem dir (n * 4096) = some f →
      walk s.mem s.cr3 (n * 4096) = some fp → last.mem f = s.mem fp := by
  refine ⟨fun n hn => ?_, fun n hn f fp hf hfp => ?_⟩
  · by_cases hin : n ∈ forkPages parent
    · obtain ⟨fp, f, hfp, hf, -⟩ := hpages n hin
      rw [(walk_user_iff hn).2 hfp, (walk_user_iff hn).2 hf]
      rfl
    · have hparent : (walk s.mem s.cr3 (n * 4096)).isSome = false := by
        have hnot := (hmarks.mem_fork_pages huser).not.1 hin
        simpa [hn] using hnot
      rw [hparent, Option.isSome_eq_false_iff, Option.isNone_iff_eq_none]
      by_contra hne
      obtain ⟨f, hf⟩ := Option.ne_none_iff_exists'.1 hne
      exact hothers n hin f ((walk_user_iff hn).1 hf)
  · have hin : n ∈ forkPages parent := (hmarks.mem_fork_pages huser).2 ⟨hn, by simp [hfp]⟩
    obtain ⟨fp', f', hfp', hf', hwords⟩ := hpages n hin
    obtain rfl : f' = f := by simpa [hf] using ((walk_user_iff hn).2 hf').symm
    obtain rfl : fp' = fp := by simpa [hfp] using ((walk_user_iff hn).2 hfp').symm
    exact hwords

/-- The bitmap of a process lies at the start of a page. -/
theorem TaskInv.bitmap_of_process (ht : TaskInv g s) (hp : UserSpace s p dir)
    (htask : s.tasks p = some task) :
    task.bitsAddr % 4096 = 0 ∧
      ∀ i < bitmapPgCnt, g.owner (task.bitsAddr / 4096 + i) = some (.bits p) := by
  obtain ⟨hin, task', htask', hstatus, hpgdir, -⟩ := hp
  obtain rfl : task = task' := by simpa [htask] using htask'
  obtain ⟨task', htask', hholds⟩ := ht.control p hin
  obtain rfl : task = task' := by simpa [htask] using htask'
  exact hholds.bits hpgdir hstatus

/-- The bitmaps of two processes are in different frames. -/
theorem TaskInv.bitmaps_apart (ht : TaskInv g s) (hf : Frames strict g s) {q d d' i y : Nat}
    {task' : Task} (hp : UserSpace s p d) (hq : UserSpace s q d') (htask : s.tasks p = some task)
    (htask' : s.tasks q = some task') (hpq : p ≠ q) (hi : i < bitmapPgCnt)
    (hx : KernelMap s.mem (task.bitsAddr / 4096 + i) x)
    (hy : KernelMap s.mem (task'.bitsAddr / 4096 + i) y) : x ≠ y := by
  have hpo := (ht.bitmap_of_process hp htask).2 i hi
  have hqo := (ht.bitmap_of_process hq htask').2 i hi
  obtain ⟨x', hx'⟩ := (hf.owned _ _ hpo).2.2 (by simp)
  obtain ⟨y', hy'⟩ := (hf.owned _ _ hqo).2.2 (by simp)
  obtain rfl : x' = x := hx'.1.2.2.symm.trans hx.2.2
  obtain rfl : y' = y := hy'.1.2.2.symm.trans hy.2.2
  refine hx'.ne hy' fun heq => hpq ?_
  rw [heq, hqo] at hpo
  simpa using hpo.symm

/-- What `sys_fork` copies makes a clone. -/
theorem ForkCopied.cloned {g' : Ghost} (h : ForkCopied g child xp parent task s last)
    (hf : Frames True g s) (ht : TaskInv g s) (hf' : Frames True g' last) (ht' : TaskInv g' last)
    (hrunning : RunningProcess s parent) (hmarks : MarksMapped s parent)
    (hnew : child ∉ s.threadAllList) (hxp : walk s.mem s.cr3 s.cur = some xp) :
    ∃ dir, Cloned s parent child task dir last := by
  obtain ⟨hcpu, hpgdir⟩ := hrunning.on_cpu ht hf
  obtain ⟨hin, hholds, hlive⟩ := hcpu.holds ht hpgdir
  obtain ⟨-, hpage, -, huser, -⟩ := hholds.space hpgdir
  obtain ⟨hbitsal, hbits⟩ := hholds.bits hpgdir hcpu.running
  have hp := hcpu.process hpgdir
  have hne : s.cur ≠ child := fun heq => hnew (heq ▸ hin)
  obtain ⟨hisdir, hdiro, hdirmap, hdiruse⟩ := hf.dirs _ _ hp
  obtain ⟨dir, hmap, hpages, hothers⟩ := h.space
  obtain ⟨hsame, hwords⟩ := hmarks.same_pages huser hpages hothers
  have hblock : last.tasks child = some task := by rw [h.tasks, update_self]
  obtain ⟨bits, pgdir, rfl⟩ := h.block
  have hpblock : last.tasks s.cur = some parent := by
    rw [h.tasks, update_of_ne hne, hcpu.block]
  have hlisted : child ∈ last.threadAllList := by simp [h.threads]
  have hpgdir' : pgdir ≠ 0 := by
    have := hmap.1.1
    dsimp only at this
    omega
  have hspace : UserSpace last child dir :=
    ⟨hlisted, _, hblock, by simp, hpgdir', hf'.walk_kernel rfl hmap⟩
  have hpspace : UserSpace last s.cur s.cr3 := by
    refine ⟨by simp [h.threads, hin], parent, hpblock, hcpu.running, hpgdir, ?_⟩
    refine hf'.walk_kernel (n := g.dirPage s.cur) (by omega) ?_
    exact h.maps _ _ (by simp [hdiro]) hdirmap
  refine ⟨dir, hblock, hspace, hsame, hwords, ?_, ⟨hpspace, h.cr3⟩, ⟨?_, ?_⟩, ?_, rfl,
    ?_, rfl, rfl, ?_⟩
  · intro q n m f hx hy
    have huse := ht'.use_of_maps_to hf' hx
    rw [ht'.use_of_maps_to hf' hy] at huse
    simpa [Place.use] using (Use.user.inj (Option.some.inj huse)).1
  · exact h.kept _ _ hdiruse (by simp)
  · intro i t htable
    have huse := (hf.tables _ _ hlive hp i t htable).resolve_left fun hnot => hnot.1 trivial
    refine h.kept t _ huse ?_
    rintro ⟨j, hj⟩
    exact hne (Use.table.inj hj).1
  · intro n hn f hwalk
    have huse := hf.userPages trivial _ _ hlive hp n f ((walk_user_iff hn).1 hwalk)
    exact h.kept f _ huse (by simp)
  · intro i hi
    obtain ⟨y, hy⟩ := (hf.owned _ _ (hbits i hi)).2.2 (by simp)
    obtain ⟨x, hx, hcopy⟩ := h.bitmap i hi y hy
    have hy' := h.maps _ y (by simp [hbits i hi]) hy.1
    refine ⟨x, y, hf'.walk_kernel (by dsimp only; omega) hx,
      hf'.walk_kernel (by omega) hy', ?_, hcopy,
      h.kept y _ hy.2 (by simp)⟩
    exact ht'.bitmaps_apart hf' hspace hpspace hblock hpblock hne.symm hi hx hy'
  · intro xp' hxp' hcs later hlater
    obtain rfl : xp = xp' := by simpa [hxp] using hxp'
    obtain ⟨xc, hxc, hstack⟩ := h.pcb
    rw [← h.intrExit] at hstack
    exact hlater.resumes hpgdir' rfl (hf'.walk_kernel rfl hxc) hstack hcs

theorem RunningProcess.page (h : RunningProcess s parent) (ht : TaskInv g s)
    (hf : Frames strict g s) : ∃ xp, Mapped g s.mem (s.cur / 4096) xp ∧
      walk s.mem s.cr3 s.cur = some xp := by
  obtain ⟨hcpu, hpgdir⟩ := h.on_cpu ht hf
  obtain ⟨-, hholds, -⟩ := hcpu.holds ht hpgdir
  obtain ⟨-, hpcb⟩ := hholds.pcb.resolve_left (hholds.space hpgdir).1
  obtain ⟨xp, hxp⟩ := (hf.owned _ _ hpcb).2.2 (by simp)
  exact ⟨xp, hxp, hf.walk_mapped rfl hxp.1⟩

/-- The state in which a process forks: its bitmap marks its pages, and there is memory
for a child. -/
structure ForkReady (s : Vm) (parent : Task) : Prop where
  ok : SpacesOk s
  unmapped : Unmapped s
  running : RunningProcess s parent
  marks : MarksMapped s parent
  memory : ForkMemory s parent

/-- What `sys_fork` does depends on the descriptors of the parent. -/
theorem ForkReady.returns (h : ForkReady s parent) (hf : Frames True g s) (ht : TaskInv g s)
    (hxp : Mapped g s.mem (s.cur / 4096) xp) {Q : Option (Nat × Int) → Vm → Prop}
    (hgood : FdsOpen s parent → ∀ child task last, ForkCopied g child xp parent task s last →
      Q (some (child, task.pid)) last)
    (hbad : ¬FdsOpen s parent → ok .badAccess ∧ ok .assertFailed) : wp ok sysFork s Q := by
  obtain ⟨hcpu, hpgdir⟩ := h.running.on_cpu ht hf
  obtain ⟨-, hholds, -⟩ := hcpu.holds ht hpgdir
  obtain ⟨-, -, -, huser, -⟩ := hholds.space hpgdir
  refine sys_fork_returns hf ht h.unmapped hcpu hpgdir hxp h.memory (fun m hm => ?_) hgood hbad
  obtain ⟨hn, hsome⟩ := (h.marks.mem_fork_pages huser).1 hm
  obtain ⟨f, hmap⟩ := Option.isSome_iff_exists.1 hsome
  exact ⟨f, (walk_user_iff hn).1 hmap⟩

/-- A fork with open or closed descriptors returns. -/
theorem ForkReady.forks (h : ForkReady s parent) (hopen : FdsOpen s parent) (hf : Frames True g s)
    (ht : TaskInv g s) :
    ∃ child task xp g' last, sysFork s = .done (some (child, task.pid)) last ∧
      ForkCopied g child xp parent task s last ∧ ForkMade True g s parent child g' last ∧
      walk s.mem s.cr3 s.cur = some xp := by
  obtain ⟨xp, hxp, hwalk⟩ := h.running.page ht hf
  have hreturns : wp never sysFork s fun r last => ∃ child task,
      r = some (child, task.pid) ∧ ForkCopied g child xp parent task s last :=
    h.returns hf ht hxp (fun _ child task _ hcopied => ⟨child, task, rfl, hcopied⟩)
      fun hnot => absurd hopen hnot
  have hspec := sys_fork_spec hf ht (h.running.on_cpu ht hf).1 fun _ _ _ _ => h.memory.kernel
  obtain ⟨_, last, hdone, ⟨child, task, rfl, hcopied⟩, -, hmade⟩ :=
    wp_never_iff.1 (wp_and_any hreturns hspec)
  obtain ⟨g', hmade⟩ := hmade child task.pid rfl
  exact ⟨child, task, xp, g', last, hdone, hcopied, hmade, hwalk⟩

/-- A fork with open or closed descriptors returns a clone. -/
theorem ForkReady.clones (h : ForkReady s parent) (hopen : FdsOpen s parent) :
    ∃ child task dir last, sysFork s = .done (some (child, task.pid)) last ∧
      Cloned s parent child task dir last := by
  obtain ⟨g, hf, ht⟩ := h.ok
  obtain ⟨child, task, xp, g', last, hdone, hcopied, hmade, hwalk⟩ := h.forks hopen hf ht
  obtain ⟨dir, hcloned⟩ := hcopied.cloned hf ht hmade.kept.frames hmade.kept.tasks h.running h.marks
    hmade.new hwalk
  exact ⟨child, task, dir, last, hdone, hcloned⟩

/-- A fork with a descriptor that refers to nothing does not return. -/
theorem ForkReady.stops (h : ForkReady s parent) (hnot : ¬FdsOpen s parent) {r : Option (Nat × Int)}
    (hdone : sysFork s = .done r last) : False := by
  obtain ⟨g, hf, ht⟩ := h.ok
  obtain ⟨xp, hxp, -⟩ := h.running.page ht hf
  have hstops : wp any sysFork s fun _ _ => False :=
    h.returns hf ht hxp (fun hopen => absurd hopen hnot) fun _ => ⟨trivial, trivial⟩
  exact wp_any_iff.1 hstops _ _ hdone

/-! ## A process that can fork -/

theorem scan_test_single (k j : Nat) :
    bitmapScanTest (bitmapSet ⟨userMapLen, fun _ => 0⟩ k true) j = true ↔ j = k := by
  rw [scan_test_bitmap_set]
  by_cases hj : j = k
  · simp [hj]
  · simp [bitmapScanTest]

/-- The control block of a process with a page for its stack and no other. -/
def withStack (task : Task) : Task :=
  { task with userprogVaddr :=
    ⟨bitmapSet ⟨userMapLen, fun _ => 0⟩ (0xbffff - 0x8048) true, userVaddrStart⟩ }

theorem fork_pages_with_stack (task : Task) : ∀ n ∈ forkPages (withStack task), n = 0xbffff := by
  have huser : UserLayout (withStack task) := ⟨rfl, bitmap_set_len _ _ _⟩
  intro n hn
  obtain ⟨-, hle, hbit⟩ := (mem_fork_pages huser).1 hn
  rw [withStack, scan_test_single] at hbit
  omega

theorem fork_pages_length_le (task : Task) : (forkPages (withStack task)).length ≤ 1 := by
  have hnodup : (forkPages (withStack task)).Nodup :=
    (List.Nodup.filter _ List.nodup_range').map fun _ _ h => by simpa using h
  have hsub : forkPages (withStack task) ⊆ [0xbffff] := by
    intro n hn
    simpa using fork_pages_with_stack task n hn
  exact (hnodup.subperm hsub).length_le

/-- A process with an empty user half gets its stack. -/
theorem RunningProcess.start (h : RunningProcess s task) (hf : Frames True g s) (ht : TaskInv g s)
    (hunmapped : Unmapped s)
    (hmap : task.userprogVaddr = ⟨⟨userMapLen, fun _ => 0⟩, userVaddrStart⟩)
    (hempty : ∀ m f, ¬UserMap s.mem s.cr3 m f)
    (hbits : ([1, 1, bitmapPgCnt, 1].foldlM reserveBits s.kernelVaddr.vaddrMap).isSome = true)
    (hkernel : 28 ≤ s.kernelPool.free) (huser : 2 ≤ s.userPool.free) :
    ∃ last, ForkReady last (withStack task) ∧ last.fdInode = s.fdInode ∧ last.nextPid = s.nextPid ∧
      last.threadAllList = s.threadAllList ∧ last.cur = s.cur := by
  obtain ⟨hcpu, hpgdir⟩ := h.on_cpu ht hf
  obtain ⟨hin, hholds, hlive⟩ := hcpu.holds ht hpgdir
  obtain ⟨-, hpage, -, hlayout, -⟩ := hholds.space hpgdir
  have hdir := hcpu.process hpgdir
  have hn : userStack3Vaddr / 4096 = 0xbffff := by decide
  have hroom : Room s s.cr3 [0xbffff] := by
    have hcard : missingTables s.mem s.cr3 ([0xbffff].take s.userPool.free) ≤ 1 := by
      refine (Finset.card_filter_le _ _).trans ((List.toFinset_card_le _).trans ?_)
      simp
    exact hcard.trans (by omega)
  have hreturns := hf.get_a_page_user_returns (v := userStack3Vaddr) hlive hdir h.block
    hpgdir hlayout
    (by decide) (by decide) (by rw [hn]; exact hempty _) (by rwa [hn]) (by omega)
  have hspec := hf.get_a_page_user (v := userStack3Vaddr) hlive hdir h.block hlayout (by decide)
    fun _ => by rwa [hn]
  obtain ⟨_, last, -, ⟨⟨f, hadded⟩, htasks, huserfree, hkernelfree, hvaddr, hcur, hfiles, hpid⟩,
    hshapes, -, hcr3, g', hext, hf'⟩ := wp_never_iff.1 (wp_and_any hreturns hspec)
  have hblock : last.tasks last.cur = some (withStack task) := by
    rw [htasks, hcur, update_self, hmap]
    rfl
  have hlist : last.cur ∈ last.threadAllList := by rwa [hcur, hshapes.threadAllList]
  have hlen := fork_pages_length_le task
  obtain ⟨-, -, hdirmap, -⟩ := hf.dirs _ _ hdir
  refine ⟨last, ⟨⟨g', hf', ht.of_shapes hext.grows.keeps_tasks hshapes⟩,
    hunmapped.congr hadded.low hvaddr,
    ⟨hblock, hlist, _, hblock, hcpu.running, hpgdir, ?_⟩, fun n hlt => ?_, by rwa [hvaddr],
    ?_, by omega⟩,
    hfiles, hpid, hshapes.threadAllList, hcur⟩
  · rw [hcr3]
    refine hf'.walk_kernel ?_ ((kernel_map_congr hadded.low).2 hdirmap)
    rw [withStack, hpage, Nat.mul_div_cancel _ (by decide)]
  · rw [hcr3, Option.isSome_iff_exists]
    simp only [walk_user_iff hlt, withStack, scan_test_single]
    constructor
    · intro ⟨x, hx⟩
      by_cases hstack : n = 0xbffff
      · omega
      · exact absurd ((hadded.others n hstack x).1 hx) (hempty n x)
    · intro ⟨hle, hidx⟩
      obtain rfl : n = 0xbffff := by omega
      exact ⟨f, hadded.page⟩
  · have htables : forkTables last (withStack task) ≤ 1 := by
      refine (List.toFinset_card_le _).trans ?_
      rw [List.length_map, List.length_take]
      omega
    omega

/-- A process that has just been created can fork once it has its stack. -/
theorem exists_fork_ready (hok : SpacesOk s) (hunmapped : Unmapped s)
    (hbits : (([1, bitmapPgCnt, 1] ++ [1, 1, bitmapPgCnt, 1]).foldlM reserveBits
      s.kernelVaddr.vaddrMap).isSome = true)
    (hkernel : 53 ≤ s.kernelPool.free) (huser : 2 ≤ s.userPool.free) :
    ∃ last parent, ForkReady last parent ∧ last.fdInode = s.fdInode ∧
      (∀ k < 5, parent.fdTable (3 + k) = -1) ∧ parent.pid = incPid s.nextPid ∧
      last.nextPid = incPid s.nextPid ∧ last.threadAllList = s.threadAllList ++ [last.cur] := by
  obtain ⟨g, hf, ht⟩ := hok
  rw [List.foldlM_append] at hbits
  obtain ⟨m, hm⟩ : ∃ m, [1, bitmapPgCnt, 1].foldlM reserveBits s.kernelVaddr.vaddrMap = some m := by
    cases hfold : [1, bitmapPgCnt, 1].foldlM reserveBits s.kernelVaddr.vaddrMap with
    | none => simp [hfold] at hbits
    | some m => exact ⟨m, rfl⟩
  rw [hm] at hbits
  -- the process is created
  obtain ⟨_, s1, -, ⟨thread, task, dir, hcreated⟩, g1, -, -, hkept, -⟩ := wp_never_iff.1
    (wp_and_any (hf.process_execute_returns hunmapped (by simp [hm]) (by omega))
      (process_execute_spec hf ht))
  have hin : thread ∈ s1.threadAllList := by simp [hcreated.threads]
  have htask : s1.tasks thread = some task := by rw [hcreated.tasks, update_self]
  have hbits1 := hcreated.bits
  rw [hm] at hbits1
  have hfree1 := hcreated.free
  have hspace := hcreated.space
  obtain ⟨bits, pgdir, rfl⟩ := hcreated.block
  -- the scheduler switches to it
  have hswitch : wp never (switchTo thread) s1 fun _ s2 =>
      s2 = { s1 with cr3 := dir, cur := thread } ∧ Frames True g1 s2 :=
    wp_switch_to_process hkept.frames hkept.tasks hin htask
      (hkept.tasks.dir_of_page hkept.frames hin htask hspace) fun h2 => ⟨rfl, h2⟩
  obtain ⟨_, s2, -, rfl, hf2⟩ := wp_never_iff.1 hswitch
  have hpgdir : pgdir ≠ 0 := by
    have := hspace.1.1
    dsimp only at this
    omega
  have hrunning : RunningProcess { s1 with cr3 := dir, cur := thread } _ :=
    ⟨htask, hin, _, htask, by simp [threadCreate, Task.fresh], hpgdir, hf2.walk_kernel rfl hspace⟩
  have hempty : ∀ m f, ¬UserMap s1.mem dir m f := by
    intro m f ⟨t, ⟨hlt, hpresent, _⟩, _⟩
    rw [hcreated.empty _ hlt] at hpresent
    simp at hpresent
  rw [hbits1] at hbits
  rw [← hcreated.userPool] at huser
  have hkernel1 : 28 ≤ s1.kernelPool.free := by omega
  obtain ⟨last, hready, hfiles, hpid, hlist, hcur⟩ :=
    hrunning.start hf2 (hkept.tasks.congr rfl rfl rfl) hcreated.unmapped rfl
    hempty hbits hkernel1 huser
  refine ⟨last, _, hready, hfiles.trans hcreated.fdInode, fun k _ => ?_, rfl,
    hpid.trans hcreated.nextPid,
    ?_⟩
  · show (if 3 + k < 3 then ((3 + k : Nat) : Int) else -1) = -1
    rw [if_neg (by omega)]
  · rw [hlist, hcur]
    exact hcreated.threads

theorem boot_unmapped {ram : Nat → Nat → Nat} (hclear : ClearTables ram) (slack : Bytes)
    (allMem : Nat) : Unmapped (Vm.boot ram slack allMem) := by
  intro n hn _
  have hmem : (Vm.boot ram slack allMem).mem = setupPage ram := rfl
  rw [hmem, kernelEntry, setup_page_heap ram hn, hclear n hn]

/-- A machine with 64 frames in each pool has a process that can fork. -/
theorem exists_fork_ready_boot : ∃ s parent, ForkReady s parent ∧ (∀ fd, s.fdInode fd = none) ∧
    (∀ k < 5, parent.fdTable (3 + k) = -1) ∧ parent.pid = 1 ∧ s.nextPid = 1 ∧
    s.threadAllList = [s.cur] := by
  have hclear : ClearTables fun _ _ => 0 := fun _ _ => rfl
  have hboot : SysOk True .empty (Sys.boot (fun _ _ => 0) (fun _ => 0) 0x280000) :=
    boot_ok _ _ fun _ => hclear
  obtain ⟨s, parent, hready, hfiles, hrest⟩ := exists_fork_ready ⟨_, hboot.frames, hboot.tasks⟩
    (boot_unmapped hclear (fun _ => 0) 0x280000) (by decide +kernel) (by decide +kernel)
    (by decide +kernel)
  exact ⟨s, parent, hready, fun fd => by rw [hfiles]; rfl, hrest⟩

/-- The descriptors of a process do not matter before the fork. -/
theorem ForkReady.set_fd_table (h : ForkReady s parent) (fdTable : Nat → Int) :
    ForkReady { s with tasks := update s.tasks s.cur (some { parent with fdTable := fdTable }) }
      { parent with fdTable := fdTable } := by
  obtain ⟨g, hf, ht⟩ := h.ok
  obtain ⟨hin, task, htask, hstatus, hpgdir, hwalk⟩ := h.running.space
  obtain rfl : parent = task := by simpa [h.running.block] using htask
  have hblock : update s.tasks s.cur (some { parent with fdTable := fdTable }) s.cur =
      some { parent with fdTable := fdTable } := update_self _ _ _
  refine ⟨⟨g, hf.congr rfl rfl rfl rfl rfl, ?_⟩, h.unmapped,
    ⟨hblock, hin, _, hblock, hstatus, hpgdir, hwalk⟩, h.marks,
    ⟨h.memory.virtual, h.memory.kernel, h.memory.user⟩⟩
  exact ht.of_kinds ⟨rfl, rfl, rfl, fun _ _ _ => rfl⟩ (.store h.running.block rfl) rfl rfl

/-! ## When a fork returns a clone -/

/-- For a process whose bitmap marks its pages, and with memory for the child: `sys_fork` returns a
clone if and only if the descriptors of the process are closed or refer to open files. -/
theorem fork_clones_iff {parent : Task} (h : ForkReady s parent) :
    (∃ child task dir last, sysFork s = .done (some (child, task.pid)) last ∧
      Cloned s parent child task dir last) ↔ FdsOpen s parent := by
  refine ⟨fun hclone => ?_, h.clones⟩
  obtain ⟨child, task, dir, last, hdone, -⟩ := hclone
  by_contra hnot
  exact h.stops hnot hdone

/-- A process with its stack and no open file forks. -/
theorem fork_clones_boot : ∃ s parent, ForkReady s parent ∧
    ∃ child task dir last, sysFork s = .done (some (child, task.pid)) last ∧
      Cloned s parent child task dir last := by
  obtain ⟨s, parent, hready, -, hfds, -⟩ := exists_fork_ready_boot
  exact ⟨s, parent, hready, (fork_clones_iff hready).2 fun k hk => .inl (hfds k hk)⟩

/-- A process keeps a descriptor of a file that its child has closed: the next fork
finds no inode. -/
theorem fork_follows_null : ∃ s parent, ForkReady s parent ∧ parent.fdTable 3 = 3 ∧
    s.fdInode 3 = none ∧
    ¬∃ child task dir last, sysFork s = .done (some (child, task.pid)) last ∧
      Cloned s parent child task dir last := by
  obtain ⟨s, parent, hready, hfiles, -⟩ := exists_fork_ready_boot
  have hready' := hready.set_fd_table fun fd => if fd ≤ 3 then fd else -1
  refine ⟨_, _, hready', rfl, hfiles 3, ?_⟩
  intro ⟨child, task, dir, last, hdone, _⟩
  refine hready'.stops (fun hopen => ?_) hdone
  rcases hopen 0 (by decide) with hclosed | ⟨-, -, hinode⟩
  · have hthree : (3 : Int) = -1 := hclosed
    simp at hthree
  · exact hinode (hfiles 3)

end LosKernel.Mm
