import LosKernel.Mm.ForkClone

/-!
# The page that a child leaves behind

A process that can fork does so, its child exits, and its wait reaps the child. The run exists, and
afterwards a page of the kernel is taken that was free before.
-/

namespace LosKernel.Mm

open Prog
open Function (update_of_ne update_self)

variable {strict : Prop} {g : Ghost} {s last : Vm} {task ctask parent : Task} {child p : Nat}

/-! ## Exit -/

theorem pid2_thread_found {pid : Int}
    (h : ∃ p ∈ s.threadAllList, ∃ t, s.tasks p = some t ∧ t.pid = pid) :
    ∃ p t, pid2Thread s pid = some p ∧ s.tasks p = some t ∧ t.pid = pid := by
  obtain ⟨q, hq, tq, htq, hpid⟩ := h
  cases hfind : pid2Thread s pid with
  | none =>
    have hnone := List.find?_eq_none.1 hfind q hq
    simp [htq, hpid] at hnone
  | some p =>
    have hsome := List.find?_some hfind
    cases htask : s.tasks p with
    | none => simp [htask] at hsome
    | some t => exact ⟨p, t, rfl, htask, by simpa [htask] using hsome⟩

/-- What an exit leaves: the process hangs, and the others are as before but for their parents and
for the one that is woken up. -/
structure Exited (s : Vm) (task : Task) (last : Vm) : Prop where
  threads : last.threadAllList = s.threadAllList
  self : ∃ t, last.tasks s.cur = some t ∧ t.status = .hanging ∧ t.parentPid = task.parentPid
  others : ∀ q t, q ≠ s.cur → s.tasks q = some t →
    ∃ t', last.tasks q = some t' ∧ t'.pid = t.pid ∧ t'.pgdir = t.pgdir ∧
      (t'.status = .hanging → t.status = .hanging)

/-- An exit returns when the parent is there. -/
theorem sys_exit_returns (hf : Frames strict g s) (ht : TaskInv g s) (hcpu : OnCpu g s task)
    (hpgdir : task.pgdir ≠ 0) (hparent : task.parentPid ≠ -1) (hself : task.parentPid ≠ task.pid)
    (hfound : ∃ p ∈ s.threadAllList, ∃ t, s.tasks p = some t ∧ t.pid = task.parentPid) :
    wp never sysExit s fun _ last => Exited s task last := by
  obtain ⟨hin, hholds, hlive⟩ := hcpu.holds ht hpgdir
  obtain ⟨-, hpage, -, huser, -⟩ := hholds.space hpgdir
  obtain ⟨haligned, hbits⟩ := hholds.bits hpgdir hcpu.running
  have hf0 : Frames strict g (adopted s task.pid) := hf.congr rfl rfl rfl rfl rfl
  -- the control blocks after the adoption
  have hadopt : ∀ q t, s.tasks q = some t → ∃ t', (adopted s task.pid).tasks q = some t' ∧
      (t'.pid = t.pid ∧ t'.pgdir = t.pgdir ∧ t'.status = t.status) ∧
      (t.parentPid ≠ task.pid → t' = t) := by
    intro q t htask
    simp only [adopted, htask, Option.map_some]
    split
    · split <;> simp_all
    · exact ⟨t, rfl, ⟨rfl, rfl, rfl⟩, fun _ => rfl⟩
  have hcur0 : (adopted s task.pid).tasks s.cur = some task := by
    obtain ⟨t', ht', -, hsame⟩ := hadopt _ _ hcpu.block
    rw [ht', hsame hself]
  simp only [sysExit, adoptChildren, wp_bind, wp_running_thread, hcpu.block, of_some,
    of_true, wp_update, wp_assert, hparent, ne_eq, not_false_eq_true, decide_true]
  refine wp_mono (hf0.release_prog_resource hlive (hcpu.process hpgdir) hpage huser haligned
    hbits) ?_
  intro _ s1 hspec
  obtain ⟨hsame, -⟩ := hspec
  have hcur1 : s1.cur = s.cur := hsame.cur
  have hlist1 : s1.threadAllList = s.threadAllList := hsame.threadAllList
  have htask1 : s1.tasks s.cur = some task := by rw [hsame.tasks, hcur0]
  have hothers1 : ∀ q t, s.tasks q = some t → ∃ t', s1.tasks q = some t' ∧ t'.pid = t.pid ∧
      t'.pgdir = t.pgdir ∧ t'.status = t.status := by
    intro q t htask
    obtain ⟨t', ht', hfields, -⟩ := hadopt q t htask
    exact ⟨t', by rw [hsame.tasks, ht'], hfields⟩
  obtain ⟨p, t, hpid2, htp, hpid⟩ : ∃ p t, pid2Thread s1 task.parentPid = some p ∧
      s1.tasks p = some t ∧ t.pid = task.parentPid := by
    obtain ⟨q, hq, tq, htq, hpidq⟩ := hfound
    obtain ⟨t', ht', hpid', -⟩ := hothers1 q tq htq
    exact pid2_thread_found ⟨q, by rwa [hlist1], t', ht', hpid'.trans hpidq⟩
  have hpcur : p ≠ s.cur := by
    rintro rfl
    rw [htask1, Option.some.injEq] at htp
    exact hself (by rw [← hpid, ← htp])
  simp only [hcur1, htask1, of_some, wakeParent, wp_bind, wp_state, hpid2, wp_non_null, htp]
  rw [wp_when]
  refine ⟨fun hwaiting => ?_, fun _ => ?_⟩
  · simp only [wp_store_task, hcur1, update_of_ne hpcur.symm, htask1, of_some]
    refine ⟨hlist1, ⟨_, update_self _ _ _, rfl, rfl⟩, fun q tq hq htq => ?_⟩
    dsimp only
    rw [update_of_ne hq]
    obtain ⟨t', ht', hpid', hpgdir', hstatus⟩ := hothers1 q tq htq
    by_cases hqp : q = p
    · subst hqp
      obtain rfl : t = t' := by simpa [htp] using ht'
      exact ⟨_, update_self _ _ _, hpid', hpgdir', by simp⟩
    · exact ⟨t', by rw [update_of_ne hqp, ht'], hpid', hpgdir', fun hhang => hstatus ▸ hhang⟩
  · simp only [hcur1, htask1, of_some]
    refine ⟨hlist1, ⟨_, update_self _ _ _, rfl, rfl⟩, fun q tq hq htq => ?_⟩
    dsimp only
    rw [update_of_ne hq]
    obtain ⟨t', ht', hpid', hpgdir', hstatus⟩ := hothers1 q tq htq
    exact ⟨t', ht', hpid', hpgdir', fun hhang => hstatus ▸ hhang⟩

/-! ## Wait -/

/-- A wait reaps the only process that hangs if it is a child. -/
theorem sys_wait_returns (hf : Frames strict g s) (ht : TaskInv g s) (hcpu : OnCpu g s task)
    (hin : child ∈ s.threadAllList) (hchild : s.tasks child = some ctask)
    (hhang : ctask.status = .hanging) (hparent : ctask.parentPid = task.pid)
    (honly : ∀ q ∈ s.threadAllList, ∀ t, s.tasks q = some t → t.status = .hanging → q = child) :
    wp never sysWait s fun r _ => r = .reaped child ctask.pid := by
  have hfind : (s.threadAllList.find? fun p => (s.tasks p).any fun t =>
      t.parentPid == task.pid && t.status == .hanging) = some child := by
    cases hfind : s.threadAllList.find? fun p => (s.tasks p).any fun t =>
        t.parentPid == task.pid && t.status == .hanging with
    | none =>
      have hnone := List.find?_eq_none.1 hfind child hin
      simp [hchild, hparent, hhang] at hnone
    | some q =>
      have hsome := List.find?_some hfind
      obtain ⟨t, htask, hcond⟩ := (Option.any_eq_true _ _).1 hsome
      simp only [Bool.and_eq_true, beq_iff_eq] at hcond
      rw [honly q (List.mem_of_find?_eq_some hfind) t htask hcond.2]
  simp only [sysWait, wp_bind, wp_running_thread, hcpu.block, of_some, wp_state,
    hfind, wp_non_null, hchild, wp_pure]
  refine wp_mono (thread_exit_spec hf ht hin hchild hhang (hcpu.dir_ne hf hchild hhang)) ?_
  exact fun _ _ _ => trivial

/-! ## The run -/

/-- A process in the list that does not hang runs after a switch to it. -/
theorem TaskInv.on_cpu_of_switch (ht : TaskInv g s) {dir : Nat} (hp : p ∈ s.threadAllList)
    (htask : s.tasks p = some task) (hdir : g.dir p = some dir) (hstatus : task.status ≠ .hanging) :
    OnCpu g { s with cr3 := dir, cur := p } task := by
  obtain ⟨task', htask', hholds⟩ := ht.control p hp
  obtain rfl : task = task' := by simpa [htask] using htask'
  have hpgdir : task.pgdir ≠ 0 := fun hzero => by simp [(hholds.thread hzero).1] at hdir
  exact ⟨htask, .inl hp, hstatus, fun hzero => absurd hzero hpgdir, fun _ => hdir⟩

theorem child_exits (hf : Frames strict g s) (ht : TaskInv g s) (hin : child ∈ s.threadAllList)
    (htask : s.tasks child = some task) (hpgdir : task.pgdir ≠ 0) (hstatus : task.status ≠ .hanging)
    (hparent : task.parentPid ≠ -1) (hself : task.parentPid ≠ task.pid)
    (hfound : ∃ p ∈ s.threadAllList, ∃ t, s.tasks p = some t ∧ t.pid = task.parentPid) :
    ∃ dir g' last, (do switchTo child; sysExit) s = .done () last ∧ Frames strict g' last ∧
      TaskInv g' last ∧ Exited { s with cr3 := dir, cur := child } task last := by
  obtain ⟨dir, hdir, -, -⟩ := ht.dir_of_process hf hin htask hpgdir
  have hrun : wp never (do switchTo child; sysExit) s fun _ last =>
      Exited { s with cr3 := dir, cur := child } task last ∧
        ∃ g', Frames strict g' last ∧ TaskInv g' last := by
    rw [wp_bind]
    refine wp_switch_to_process hf ht hin htask hdir fun h1 => ?_
    have ht1 : TaskInv g { s with cr3 := dir, cur := child } := ht.congr rfl rfl rfl
    have hcpu := ht.on_cpu_of_switch hin htask hdir hstatus
    refine wp_mono (wp_and_any
      (sys_exit_returns h1 ht1 hcpu hpgdir hparent hself hfound)
      (sys_exit_spec h1 ht1 hcpu hpgdir)) ?_
    intro _ last hlast
    obtain ⟨hexited, g', hkept, -⟩ := hlast
    exact ⟨hexited, g', hkept.frames, hkept.tasks⟩
  obtain ⟨_, last, hdone, hexited, g', hf', ht'⟩ := wp_never_iff.1 hrun
  exact ⟨dir, g', last, hdone, hf', ht', hexited⟩

/-- The parent reaps the only process that hangs if it is a child. -/
theorem parent_reaps (hf : Frames strict g s) (ht : TaskInv g s) (hp : p ∈ s.threadAllList)
    (htask : s.tasks p = some task) (hpgdir : task.pgdir ≠ 0) (hstatus : task.status ≠ .hanging)
    (hin : child ∈ s.threadAllList) (hchild : s.tasks child = some ctask)
    (hhang : ctask.status = .hanging) (hparent : ctask.parentPid = task.pid)
    (honly : ∀ q ∈ s.threadAllList, ∀ t, s.tasks q = some t → t.status = .hanging → q = child) :
    ∃ last, (do switchTo p; sysWait) s = .done (.reaped child ctask.pid) last := by
  obtain ⟨dir, hdir, -, -⟩ := ht.dir_of_process hf hp htask hpgdir
  have hrun : wp never (do switchTo p; sysWait) s fun r _ => r = .reaped child ctask.pid := by
    rw [wp_bind]
    refine wp_switch_to_process hf ht hp htask hdir fun h1 => ?_
    have ht1 : TaskInv g { s with cr3 := dir, cur := p } := ht.congr rfl rfl rfl
    exact sys_wait_returns h1 ht1 (ht.on_cpu_of_switch hp htask hdir hstatus) hin
      hchild hhang hparent
      honly
  obtain ⟨_, last, hdone, rfl⟩ := wp_never_iff.1 hrun
  exact ⟨last, hdone⟩

/-- A process that can fork does so, its child exits, and its wait reaps the child. -/
theorem ForkReady.exists_fork_exit_wait (h : ForkReady s parent) (hopen : FdsOpen s parent)
    (hpid : parent.pid ≠ -1) (hnew : parent.pid ≠ incPid s.nextPid)
    (hquiet : ∀ q ∈ s.threadAllList, ∀ t, s.tasks q = some t → t.status ≠ .hanging) :
    ∃ last, ForkExitWait s last := by
  obtain ⟨g, hf, ht⟩ := h.ok
  obtain ⟨hcpu, hpgdir⟩ := h.running.on_cpu ht hf
  have hcur : s.cur ∈ s.threadAllList := h.running.space.1
  obtain ⟨child, task, xp, g1, s1, hfork, hcopied, hmade, -⟩ := h.forks hopen hf ht
  obtain ⟨bits, pgdir, hblock⟩ := hcopied.block
  have hne : ∀ q ∈ s.threadAllList, q ≠ child := fun q hq heq => hmade.new (heq ▸ hq)
  have htask1 : s1.tasks child = some task := by rw [hcopied.tasks, update_self]
  have hothers1 : ∀ q ∈ s.threadAllList, s1.tasks q = s.tasks q := fun q hq => by
    rw [hcopied.tasks, update_of_ne (hne q hq)]
  have hcur1 : s.cur ∈ s1.threadAllList := by simp [hcopied.threads, hcur]
  have hparent1 : s1.tasks s.cur = some parent := by rw [hothers1 _ hcur, hcpu.block]
  have hpgdir1 : task.pgdir ≠ 0 := by
    obtain ⟨dir, hspace, -⟩ := hcopied.space
    have := hspace.1.1
    omega
  -- the child exits
  obtain ⟨dir, g3, s3, hexit, hf3, ht3, hexited⟩ := child_exits hmade.kept.frames hmade.kept.tasks
    hmade.listed htask1 hpgdir1 (by simp [hblock]) (by simpa [hblock] using hpid)
    (by simpa [hblock] using hnew) ⟨s.cur, hcur1, parent, hparent1, by simp [hblock]⟩
  obtain ⟨ctask, hchild3, hhang, hpp⟩ := hexited.self
  obtain ⟨parent', hparent3, hpid3, hpgdir3, hstatus3⟩ :=
    hexited.others s.cur parent (hne _ hcur) hparent1
  have hlist3 : s3.threadAllList = s.threadAllList ++ [child] :=
    hexited.threads.trans hcopied.threads
  -- no other process hangs, since none did before
  have honly : ∀ q ∈ s3.threadAllList, ∀ t, s3.tasks q = some t → t.status = .hanging →
      q = child := by
    intro q hq t htask hhangs
    rw [hlist3, List.mem_append, List.mem_singleton] at hq
    refine hq.resolve_left fun hold => ?_
    obtain ⟨told, htold, -⟩ := ht.control q hold
    obtain ⟨t', ht', -, -, hstatus⟩ :=
      hexited.others q told (hne q hold) (by rw [← htold]; exact hothers1 q hold)
    obtain rfl : t = t' := by simpa [htask] using ht'
    exact hquiet q hold told htold (hstatus hhangs)
  obtain ⟨last, hwait⟩ := parent_reaps hf3 ht3 (by simp [hlist3, hcur]) hparent3
    (by rwa [hpgdir3]) (fun hhangs => hcpu.running (hstatus3 hhangs))
    (by simp [hlist3]) hchild3 hhang
    (by rw [hpp, hpid3, hblock]) honly
  exact ⟨last, child, task.pid, ctask.pid, s1, s1, s3, hfork, .inl rfl, hexit, hwait⟩

theorem ForkReady.parent_state (h : ForkReady s parent) : ParentState s := by
  obtain ⟨g, hf, ht⟩ := h.ok
  obtain ⟨hcpu, hpgdir⟩ := h.running.on_cpu ht hf
  obtain ⟨-, hholds, -⟩ := hcpu.holds ht hpgdir
  obtain ⟨-, -, -, huser, -⟩ := hholds.space hpgdir
  have hend := hf.layout.heapEnd
  refine ⟨?_, parent, hcpu.block, huser.2⟩
  rw [VirtualAddr.Fits, hf.layout.heapStart]
  omega

/-! ## Memory is lost -/

/-- There is a run in which a process forks, its child exits, and it reaps the child. -/
theorem exists_fork_exit_wait_boot : ∃ s last, ParentState s ∧ ForkExitWait s last := by
  obtain ⟨s, parent, hready, -, hfds, hpid, hnext, hlist⟩ := exists_fork_ready_boot
  obtain ⟨g, hf, ht⟩ := hready.ok
  obtain ⟨hcpu, -⟩ := hready.running.on_cpu ht hf
  have hopen : FdsOpen s parent := fun k hk => .inl (hfds k hk)
  obtain ⟨last, hrun⟩ := hready.exists_fork_exit_wait hopen (by omega)
    (by rw [hpid, hnext]; decide) <| by
    intro q hq t htask
    obtain rfl : q = s.cur := by simpa [hlist] using hq
    obtain rfl : parent = t := by simpa [hcpu.block] using htask
    exact hcpu.running
  exact ⟨s, last, hready.parent_state, hrun⟩

/-- Memory is never conserved: every fork, exit and wait loses a page of the kernel. -/
theorem memory_not_conserved (hparent : ParentState s) (hrun : ForkExitWait s last) :
    ¬Conserved s last := by
  intro hsame
  obtain ⟨i, hfree, htaken⟩ := bitmap_page_lost hparent hrun
  rw [hsame.2.2, hfree] at htaken
  simp at htaken

/-- The first process after the boot loses a page when its child is reaped. -/
theorem memory_not_conserved_boot : ∃ s last, ParentState s ∧ ForkExitWait s last ∧
    ¬Conserved s last := by
  obtain ⟨s, last, hparent, hrun⟩ := exists_fork_exit_wait_boot
  exact ⟨s, last, hparent, hrun, memory_not_conserved hparent hrun⟩

/-- A page of the kernel that was free before the fork is taken after the wait. -/
theorem fork_exit_wait_loses_page : ∃ s last, ParentState s ∧ ForkExitWait s last ∧
    ∃ i, bitmapScanTest s.kernelVaddr.vaddrMap i = false ∧
      bitmapScanTest last.kernelVaddr.vaddrMap i = true := by
  obtain ⟨s, last, hparent, hrun⟩ := exists_fork_exit_wait_boot
  exact ⟨s, last, hparent, hrun, bitmap_page_lost hparent hrun⟩

end LosKernel.Mm
