import LosKernel.Mm.Cloning

/-!
# Starting a process

With enough memory `process_execute` creates a process with an empty user half, the scheduler can
switch to it, and `get_a_page` gives it its stack. The bitmap of its virtual pages then marks the
pages that are mapped.
-/

namespace LosKernel.Mm

open Prog

variable {strict : Prop} {g : Ghost} {s last : Vm} {dir p : Nat} {task : Task}

/-- The process that `process_execute` creates. -/
structure Created (s : Vm) (thread : Nat) (task : Task) (dir : Nat) (last : Vm) : Prop where
  tasks : last.tasks = Function.update s.tasks thread (some task)
  threads : last.threadAllList = s.threadAllList ++ [thread]
  block : ∃ bits pgdir, task = { threadCreate (.fresh thread (incPid s.nextPid)) with
    pgdir := pgdir, userprogVaddr := ⟨⟨userMapLen, fun _ => 0⟩, userVaddrStart⟩, bitsAddr := bits }
  space : KernelMap last.mem (task.pgdir / 4096) dir
  empty : ∀ i < 0x300, present (last.mem dir i) = false
  unmapped : Unmapped last
  bits : [1, bitmapPgCnt, 1].foldlM reserveBits s.kernelVaddr.vaddrMap =
    some last.kernelVaddr.vaddrMap
  free : last.kernelPool.free + 25 = s.kernelPool.free
  userPool : last.userPool = s.userPool
  fdInode : last.fdInode = s.fdInode
  nextPid : last.nextPid = incPid s.nextPid

/-- `process_execute` succeeds when there are 25 frames and virtual pages. -/
theorem Frames.process_execute_returns (h : Frames strict g s) (hunmapped : Unmapped s)
    (hbits : ([1, bitmapPgCnt, 1].foldlM reserveBits s.kernelVaddr.vaddrMap).isSome = true)
    (hfree : 25 ≤ s.kernelPool.free) :
    wp never processExecute s fun _ last =>
      ∃ thread task dir, Created s thread task dir last := by
  have hcnt : bitmapPgCnt = 23 := by decide
  obtain ⟨m1, hbits1, hbits'⟩ := reserve_all_cons.1 hbits
  obtain ⟨m2, hbits2, hbits''⟩ := reserve_all_cons.1 hbits'
  obtain ⟨m3, hbits3, -⟩ := reserve_all_cons.1 hbits''
  simp only [processExecute, initThread, allocatePid, wp_bind, wp_non_null, wp_update,
    wp_state, wp_pure]
  refine wp_mono (h.take_pages_returns hunmapped (by decide) (by decide) (by simp [hbits1])
    (by omega) fun v => .pcb v) ?_
  intro r s1 hspec
  obtain ⟨thread, g1, rfl, hpcb⟩ := hspec
  rw [hpcb.nextPid]
  obtain rfl : m1 = s1.kernelVaddr.vaddrMap := by simpa [hbits1] using hpcb.served.bits
  have hfree1 := hpcb.served.free
  simp only [of_some]
  generalize hs1 : ({ s1 with nextPid := incPid s.nextPid } : Vm) = s1'
  have h1 : Frames strict g1 s1' := by
    rw [← hs1]
    exact hpcb.grown.frames.congr rfl rfl rfl rfl rfl
  have hvaddr1 : s1'.kernelVaddr = s1.kernelVaddr := by rw [← hs1]
  have hpool1 : s1'.kernelPool = s1.kernelPool := by rw [← hs1]
  have hunmapped1 : Unmapped s1' := by
    rw [← hs1]
    exact hpcb.unmapped
  have hsame1 : SameTasks s s1' := by
    rw [← hs1]
    exact hpcb.grown.same.trans ⟨rfl, rfl, rfl, rfl, rfl, rfl⟩
  have hpid1 : s1'.nextPid = incPid s.nextPid := by rw [← hs1]
  have huser1 : s1'.userPool = s.userPool := by
    rw [← hs1]
    exact hpcb.grown.userPool
  refine wp_mono (h1.take_pages_returns hunmapped1 (by decide) (by decide)
    (by simp [hvaddr1, hbits2]) (by rw [hpool1]; omega) fun _ => .bits thread) ?_
  intro r s2 hspec
  obtain ⟨bits, g2, rfl, hmap⟩ := hspec
  have hfree2 := hmap.served.free
  rw [hpool1] at hfree2
  have hbits2' := hmap.served.bits
  rw [hvaddr1, hbits2, Option.some.injEq] at hbits2'
  subst hbits2'
  simp only [of_some]
  refine wp_mono (wp_and_any (hmap.grown.frames.create_page_dir_returns hmap.unmapped
    (by simp [hbits3]) (by omega))
    (wp_and (hmap.grown.frames.create_page_dir (fun v => .range v) (by simp))
      (create_page_dir_took s2))) ?_
  intro pgdir s3 hspec
  obtain ⟨⟨hpgdir, hunmapped3, -, -, hpid3, -⟩, ⟨hsame3, -, huser3, g3, -, -, hserved⟩, -,
    htook⟩ := hspec
  obtain ⟨-, hfree3, -, -, dir, hdir, -, hempty⟩ := hserved hpgdir
  have hbits3' := (htook hpgdir).reserve_bits
  have hsame := (hsame1.trans hmap.grown.same).trans hsame3
  refine ⟨thread, _, dir, ?_, ?_, ⟨bits, pgdir, rfl⟩, hdir.1, hempty, hunmapped3, ?_, ?_, ?_,
    hsame.fdInode, ?_⟩
  · rw [← hsame.tasks]
  · rw [← hsame.threadAllList]
  · simp [hbits1, hbits2, hbits3']
  · show s3.kernelPool.free + 25 = s.kernelPool.free
    omega
  · show s3.userPool = s.userPool
    rw [huser3, hmap.grown.userPool, huser1]
  · show s3.nextPid = incPid s.nextPid
    rw [hpid3, hmap.nextPid, hpid1]

/-- The directory of a process, by the page that holds it. -/
theorem TaskInv.dir_of_page (ht : TaskInv g s) (hf : Frames strict g s) (hp : p ∈ s.threadAllList)
    (htask : s.tasks p = some task) (hspace : KernelMap s.mem (task.pgdir / 4096) dir) :
    g.dir p = some dir := by
  obtain ⟨task', htask', hholds⟩ := ht.control p hp
  obtain rfl : task = task' := by simpa [htask] using htask'
  have hpgdir : task.pgdir ≠ 0 := by
    have := hspace.1.1
    omega
  obtain ⟨-, hpage, hdir, -⟩ := hholds.space hpgdir
  obtain ⟨d, hdir⟩ := Option.ne_none_iff_exists'.1 hdir
  obtain ⟨-, -, hmap, -⟩ := hf.dirs p d hdir
  rw [hpage, Nat.mul_div_cancel _ (by decide)] at hspace
  rw [hdir, ← hspace.2.2, hmap.2.2]

theorem wp_switch_to_process {ok : Stop → Prop} (hf : Frames strict g s) (ht : TaskInv g s)
    (hp : p ∈ s.threadAllList) (htask : s.tasks p = some task) (hdir : g.dir p = some dir)
    {Q : Unit → Vm → Prop}
    (hQ : Frames strict g { s with cr3 := dir, cur := p } → Q () { s with cr3 := dir, cur := p }) :
    wp ok (switchTo p) s Q := by
  obtain ⟨task', htask', hholds⟩ := ht.control p hp
  obtain rfl : task = task' := by simpa [htask] using htask'
  have hpgdir : task.pgdir ≠ 0 := fun hzero => by simp [(hholds.thread hzero).1] at hdir
  obtain ⟨-, hpage, -⟩ := hholds.space hpgdir
  simp only [switchTo, wp_bind, wp_state, htask]
  exact hf.page_dir_activate hdir hpage fun h1 => hQ (h1.congr rfl rfl rfl rfl rfl)

/-- `get_a_page` for a page of the running process that is not mapped. -/
theorem Frames.get_a_page_user_returns (h : Frames True g s) {v : Nat} (hlive : g.live s.cur)
    (hdir : g.dir s.cur = some s.cr3) (htask : s.tasks s.cur = some task) (hpgdir : task.pgdir ≠ 0)
    (huser : UserLayout task) (hlo : 0x8048 < v / 4096) (hhi : v / 4096 < 0xc0000)
    (hunmapped : ∀ x, ¬UserMap s.mem s.cr3 (v / 4096) x) (hroom : Room s s.cr3 [v / 4096])
    (hfree : 0 < s.userPool.free) :
    wp never (getAPage .user v) s fun _ last =>
      (∃ f, PageAdded g s.cur s.cr3 (v / 4096) f s last) ∧
      last.tasks = Function.update s.tasks s.cur (some { task with userprogVaddr :=
        { task.userprogVaddr with
          vaddrMap := bitmapSet task.userprogVaddr.vaddrMap (v / 4096 - 0x8048) true } }) ∧
      last.userPool.free + 1 = s.userPool.free ∧ s.kernelPool.free ≤ last.kernelPool.free + 1 ∧
      last.kernelVaddr = s.kernelVaddr ∧ last.cur = s.cur ∧ last.fdInode = s.fdInode ∧
      last.nextPid = s.nextPid := by
  have hidx : (v + 2 ^ 32 - 0x8048000) % 2 ^ 32 / 4096 = v / 4096 - 0x8048 := by omega
  have hassert : decide (0 < v / 4096 - 0x8048) = true := by simpa using hlo
  have haccess : decide (v / 4096 - 0x8048 < 8 * userMapLen) = true := by
    rw [show 8 * userMapLen = 0xb7fb8 by decide]
    simp only [decide_eq_true_eq]
    omega
  simp only [getAPage, wp_bind, wp_running_thread, htask, of_some, of_true, hpgdir,
    ne_eq, not_false_eq_true, and_self, if_true, wp_assert, wp_access, wp_state,
    wp_store_task, huser.1, huser.2, userVaddrStart, hidx, hassert, haccess]
  rw [← wp_bind]
  show wp never (getAPageWithoutOpvaddrbitmap .user v) _ _
  have h1 : ∀ tasks, Frames True g { s with tasks := tasks } := fun _ => h.congr rfl rfl rfl rfl rfl
  refine wp_mono (wp_and_any ((h1 _).get_a_page_returns hlive hdir rfl hhi hunmapped hroom
    hfree) (keeps_get_a_page_without_opvaddrbitmap .user v _)) ?_
  intro _ last hlast
  obtain ⟨⟨f, -, hadded, huserfree, hkernelfree⟩, hquiet⟩ := hlast
  exact ⟨⟨f, hadded.page, hadded.others, hadded.kept, hadded.low⟩, hquiet.tasks,
    huserfree, hkernelfree,
    hquiet.kernelVaddr, hquiet.cur, hquiet.fdInode, hquiet.nextPid⟩

end LosKernel.Mm
