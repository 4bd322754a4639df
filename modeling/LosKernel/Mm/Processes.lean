import LosKernel.Mm.Spaces

/-!
# Processes

`TaskInv` ties the control blocks to the ghost: who holds the pages of a control block, of a page
directory and of a bitmap, and which user halves are in use. Creating a process keeps it together
with `Frames`.
-/

namespace LosKernel.Mm

open Prog hiding update
open Function (update update_of_ne)

variable {p mainThread dir n : Nat} {g' g : Ghost} {task task' : Task} {strict : Prop}
  {s last : Vm}

/-! ## Control blocks -/

/-- The control block at `p` and the ghost agree. A process without a page directory is a kernel
thread; a process that hangs has given up its user half and its bitmap. -/
structure Holds (g : Ghost) (mainThread p : Nat) (task : Task) : Prop where
  pcb : p = mainThread ∨ p % 4096 = 0 ∧ g.owner (p / 4096) = some (.pcb p)
  thread : task.pgdir = 0 → g.dir p = none ∧ ¬g.live p ∧ task.status ≠ .hanging
  space : task.pgdir ≠ 0 → p ≠ mainThread ∧ task.pgdir = g.dirPage p * 4096 ∧ g.dir p ≠ none ∧
    UserLayout task ∧ (g.live p ↔ task.status ≠ .hanging)
  bits : task.pgdir ≠ 0 → task.status ≠ .hanging → task.bitsAddr % 4096 = 0 ∧
    ∀ i < bitmapPgCnt, g.owner (task.bitsAddr / 4096 + i) = some (.bits p)

/-- All control blocks and the ghost agree. -/
structure TaskInv (g : Ghost) (s : Vm) : Prop where
  mainAt : s.mainThread = 0xc009e000
  nodup : s.threadAllList.Nodup
  main : ∃ task, s.tasks s.mainThread = some task ∧ task.pgdir = 0 ∧ task.status ≠ .hanging
  control : ∀ p ∈ s.threadAllList, ∃ task, s.tasks p = some task ∧ Holds g s.mainThread p task
  outside : ∀ p, p ∉ s.threadAllList → g.dir p = none ∧ ¬g.live p

/-- Ghost `g'` has the processes of `g`. -/
structure KeepsTasks (g g' : Ghost) : Prop where
  dir : g'.dir = g.dir
  dirPage : g'.dirPage = g.dirPage
  live : g'.live = g.live
  owner : ∀ n p, g.owner n = some (.pcb p) ∨ g.owner n = some (.bits p) → g'.owner n = g.owner n

theorem Grows.keeps_tasks (h : Grows g g') : KeepsTasks g g' := by
  refine ⟨h.dir, h.dirPage, h.live, fun n p ho => ?_⟩
  rcases ho with ho | ho <;> rw [h.owner n _ ho, ho]

theorem Loses.keeps_tasks {P : Use → Prop} (h : Loses strict P g g') :
    KeepsTasks g g' := ⟨h.dir, h.dirPage, h.live, fun n p _ => by rw [h.owner]⟩

/-- What `Holds` says about a control block depends on its shape only. -/
theorem Holds.congr (h : Holds g mainThread p task) (hg : KeepsTasks g g')
    (hpgdir : task'.pgdir = task.pgdir) (hstatus : task'.status = .hanging ↔ task.status = .hanging)
    (huser : UserLayout task → UserLayout task') (hbits : task'.bitsAddr = task.bitsAddr) :
    Holds g' mainThread p task' := by
  refine ⟨?_, ?_, ?_, ?_⟩
  · rcases h.pcb with hmain | ⟨haligned, howner⟩
    · exact .inl hmain
    · exact .inr ⟨haligned, (hg.owner _ p (.inl howner)).trans howner⟩
  · intro hzero
    obtain ⟨hdir, hlive, hne⟩ := h.thread (hpgdir ▸ hzero)
    exact ⟨by rw [hg.dir, hdir], by rwa [hg.live], fun heq => hne (hstatus.1 heq)⟩
  · intro hne
    obtain ⟨hmain, hpage, hdir, hlayout, hlive⟩ := h.space (hpgdir ▸ hne)
    refine ⟨hmain, by rw [hpgdir, hpage, hg.dirPage], by rwa [hg.dir], huser hlayout, ?_⟩
    rw [hg.live, hlive]
    exact not_congr hstatus.symm
  · intro hne hhang
    obtain ⟨haligned, howner⟩ := h.bits (hpgdir ▸ hne) fun heq => hhang (hstatus.2 heq)
    rw [hbits]
    exact ⟨haligned, fun i hi => (hg.owner _ p (.inr (howner i hi))).trans (howner i hi)⟩

/-- The part of a control block that `Holds` speaks about. -/
def Task.kind (task : Task) : Nat × Nat × Nat × Nat × Bool :=
  (task.pgdir, task.userprogVaddr.vaddrStart, task.userprogVaddr.vaddrMap.btmpBytesLen,
    task.bitsAddr, task.status = .hanging)

theorem Task.kind_of_shape (h : task'.shape = task.shape) : task'.kind = task.kind := by
  simp only [shape, Prod.mk.injEq] at h
  obtain ⟨-, -, hstatus, hpgdir, hstart, hlen, hbits⟩ := h
  simp only [kind, hstatus, hpgdir, hstart, hlen, hbits]

theorem Holds.of_kind (h : Holds g mainThread p task) (hg : KeepsTasks g g')
    (hkind : task'.kind = task.kind) : Holds g' mainThread p task' := by
  simp only [Task.kind, Prod.mk.injEq, decide_eq_decide] at hkind
  obtain ⟨hpgdir, hstart, hlen, hbits, hstatus⟩ := hkind
  refine h.congr hg hpgdir hstatus ?_ hbits
  intro ⟨hstart', hlen'⟩
  exact ⟨hstart.trans hstart', hlen.trans hlen'⟩

/-- Control blocks keep their kinds. -/
def SameKinds (s last : Vm) : Prop :=
  ∀ q, (last.tasks q).map Task.kind = (s.tasks q).map Task.kind

theorem SameKinds.trans {mid : Vm} (h : SameKinds s mid) (h' : SameKinds mid last) :
    SameKinds s last := fun q => (h' q).trans (h q)

theorem SameKinds.of_tasks (h : last.tasks = s.tasks) : SameKinds s last := fun q => by rw [h]

theorem SameKinds.store {new : Task} (htask : s.tasks p = some task)
    (hkind : new.kind = task.kind) :
    SameKinds s { s with tasks := update s.tasks p (some new) } := by
  intro q
  by_cases hq : q = p
  · subst hq
    simp [htask, hkind]
  · simp [update_of_ne hq]

theorem SameKinds.get (h : SameKinds s last) (htask : s.tasks p = some task) :
    ∃ task', last.tasks p = some task' ∧ task'.kind = task.kind := by
  have hmap := h p
  rw [htask] at hmap
  simpa [Option.map_eq_some_iff] using hmap

theorem SameShapes.same_kinds (h : SameShapes s last) : SameKinds s last := by
  intro q
  have hmap := h.tasks q
  cases hs : s.tasks q with
  | none =>
    rw [hs] at hmap
    cases hlast : last.tasks q with
    | none => rfl
    | some task' => simp [hlast] at hmap
  | some task =>
    rw [hs] at hmap
    obtain ⟨task', htask', hshape⟩ := Option.map_eq_some_iff.1 hmap
    simp [htask', Task.kind_of_shape hshape]

/-- What keeps the kinds of the control blocks keeps what is said about them. -/
theorem TaskInv.of_kinds (h : TaskInv g s) (hg : KeepsTasks g g') (hkinds : SameKinds s last)
    (hlist : last.threadAllList = s.threadAllList) (hmain : last.mainThread = s.mainThread) :
    TaskInv g' last := by
  refine ⟨hmain.trans h.mainAt, by rw [hlist]; exact h.nodup, ?_, ?_, ?_⟩
  · obtain ⟨task, htask, hpgdir, hstatus⟩ := h.main
    obtain ⟨task', htask', hkind⟩ := hkinds.get htask
    simp only [Task.kind, Prod.mk.injEq, decide_eq_decide] at hkind
    rw [hmain]
    exact ⟨task', htask', by rw [hkind.1, hpgdir], fun heq => hstatus (hkind.2.2.2.2.1 heq)⟩
  · intro p hp
    rw [hlist] at hp
    obtain ⟨task, htask, hholds⟩ := h.control p hp
    obtain ⟨task', htask', hkind⟩ := hkinds.get htask
    rw [hmain]
    exact ⟨task', htask', hholds.of_kind hg hkind⟩
  · intro p hp
    rw [hlist] at hp
    rw [hg.dir, hg.live]
    exact h.outside p hp

/-- Requests for pages keep what is said about the control blocks. -/
theorem TaskInv.of_shapes (h : TaskInv g s) (hg : KeepsTasks g g') (hshapes : SameShapes s last) :
    TaskInv g' last :=
  h.of_kinds hg hshapes.same_kinds hshapes.threadAllList hshapes.mainThread

/-- What is said about the control blocks does not depend on the rest of the state. -/
theorem TaskInv.congr (h : TaskInv g s) (htasks : last.tasks = s.tasks)
    (hlist : last.threadAllList = s.threadAllList) (hmain : last.mainThread = s.mainThread) :
    TaskInv g last := by
  refine ⟨hmain.trans h.mainAt, ?_, ?_, ?_, ?_⟩
  all_goals simp only [htasks, hlist, hmain]
  exacts [h.nodup, h.main, h.control, h.outside]

/-! ## The running thread -/

/-- The thread on the processor has the control block `task` and runs in its address space. -/
structure OnCpu (g : Ghost) (s : Vm) (task : Task) : Prop where
  block : s.tasks s.cur = some task
  known : s.cur ∈ s.threadAllList ∨ s.cur = s.mainThread
  running : task.status ≠ .hanging
  thread : task.pgdir = 0 → s.cr3 = kernelDir
  process : task.pgdir ≠ 0 → g.dir s.cur = some s.cr3

/-- A known thread has a control block that agrees with the ghost. -/
theorem TaskInv.known (h : TaskInv g s) (hp : p ∈ s.threadAllList ∨ p = s.mainThread) :
    ∃ task, s.tasks p = some task ∧ (task.pgdir ≠ 0 → p ∈ s.threadAllList) ∧
      (p ∈ s.threadAllList → Holds g s.mainThread p task) := by
  by_cases hlist : p ∈ s.threadAllList
  · obtain ⟨task, htask, hholds⟩ := h.control p hlist
    exact ⟨task, htask, fun _ => hlist, fun _ => hholds⟩
  · obtain rfl := hp.resolve_left hlist
    obtain ⟨task, htask, hpgdir, -⟩ := h.main
    exact ⟨task, htask, fun hne => absurd hpgdir hne, fun hin => absurd hin hlist⟩

/-- The running process is in the list, and its user half is in use. -/
theorem OnCpu.holds (h : OnCpu g s task) (ht : TaskInv g s) (hpgdir : task.pgdir ≠ 0) :
    s.cur ∈ s.threadAllList ∧ Holds g s.mainThread s.cur task ∧ g.live s.cur := by
  obtain ⟨task', htask', hlist, hholds⟩ := ht.known h.known
  obtain rfl : task = task' := by simpa [h.block] using htask'
  have hin := hlist hpgdir
  exact ⟨hin, hholds hin, ((hholds hin).space hpgdir).2.2.2.2.2 h.running⟩

/-- The scheduler switches to a thread that does not hang. -/
theorem TaskInv.switch_to (ht : TaskInv g s) (hf : Frames strict g s)
    (hp : p ∈ s.threadAllList ∨ p = s.mainThread)
    (hrun : ∀ task, s.tasks p = some task → task.status ≠ .hanging) :
    wp any (switchTo p) s fun _ last =>
      ∃ task, OnCpu g last task ∧ last = { s with cr3 := last.cr3, cur := p } ∧
        Frames strict g last ∧ TaskInv g last := by
  obtain ⟨task, htask, hlist, hholds⟩ := ht.known hp
  simp only [switchTo, wp_bind, wp_state, htask, wp_non_null, of_some]
  by_cases hpgdir : task.pgdir = 0
  · simp only [pageDirActivate, hpgdir, ne_eq, not_true_eq_false, if_false, wp_update]
    exact ⟨task, ⟨htask, hp, hrun task htask, fun _ => rfl, fun hne => absurd hpgdir hne⟩, trivial,
      (hf.set_cr3 (.inl rfl)).congr rfl rfl rfl rfl rfl, ht.congr rfl rfl rfl⟩
  · obtain ⟨-, hpage, hdir, -⟩ := (hholds (hlist hpgdir)).space hpgdir
    obtain ⟨dir, hdir⟩ := Option.ne_none_iff_exists'.1 hdir
    refine hf.page_dir_activate hdir hpage fun hf' => ?_
    exact ⟨task, ⟨htask, hp, hrun task htask, fun hzero => absurd hzero hpgdir, fun _ => hdir⟩, rfl,
      hf'.congr rfl rfl rfl rfl rfl, ht.congr rfl rfl rfl⟩

/-! ## New processes -/

/-- A page that nobody held does not hold a control block. -/
theorem TaskInv.fresh (h : TaskInv g s) (hnone : g.owner (p / 4096) = none)
    (hpage : HeapPage (p / 4096)) : p ∉ s.threadAllList ∧ p ≠ s.mainThread := by
  have hmain : p ≠ s.mainThread := by
    rintro rfl
    have hlo := hpage.1
    rw [h.mainAt] at hlo
    omega
  refine ⟨fun hp => ?_, hmain⟩
  obtain ⟨task, -, hholds⟩ := h.control p hp
  rcases hholds.pcb with heq | ⟨-, howner⟩
  · exact hmain heq
  · simp [hnone] at howner

theorem TaskInv.add_task (h : TaskInv g s) (hnew : p ∉ s.threadAllList) (hmain : p ≠ s.mainThread)
    (hholds : Holds g' s.mainThread p task)
    (hg : ∀ q, q ≠ p → g'.dir q = g.dir q ∧ g'.dirPage q = g.dirPage q ∧ (g'.live q ↔ g.live q))
    (howner : ∀ n o, g.owner n = some o → g'.owner n = some o) :
    TaskInv g' { s with
      tasks := update s.tasks p (some task)
      threadAllList := s.threadAllList ++ [p] } := by
  refine ⟨h.mainAt, ?_, ?_, ?_, ?_⟩
  · refine List.nodup_append.2 ⟨h.nodup, List.nodup_singleton p, ?_⟩
    rintro q hq q' hq' rfl
    obtain rfl := List.mem_singleton.1 hq'
    exact hnew hq
  · obtain ⟨mainTask, htask, hrest⟩ := h.main
    exact ⟨mainTask, by simpa [update_of_ne hmain.symm] using htask, hrest⟩
  · intro q hq
    rcases List.mem_append.1 hq with hold | hsame
    · have hne : q ≠ p := by
        rintro rfl
        exact hnew hold
      obtain ⟨qtask, htask, hq'⟩ := h.control q hold
      obtain ⟨hdir, hpage, hlive⟩ := hg q hne
      refine ⟨qtask, by simpa [update_of_ne hne] using htask, ?_⟩
      refine ⟨?_, ?_, ?_, ?_⟩
      · rcases hq'.pcb with heq | ⟨haligned, hpcb⟩
        · exact .inl heq
        · exact .inr ⟨haligned, howner _ _ hpcb⟩
      · rw [hdir, hlive]
        exact hq'.thread
      · rw [hdir, hpage, hlive]
        exact hq'.space
      · intro hpgdir hstatus
        obtain ⟨haligned, hbits⟩ := hq'.bits hpgdir hstatus
        exact ⟨haligned, fun i hi => howner _ _ (hbits i hi)⟩
    · obtain rfl : q = p := by simpa using hsame
      exact ⟨task, by simp, hholds⟩
  · intro q hq
    simp only [List.mem_append, List.mem_singleton, not_or] at hq
    obtain ⟨hdir, -, hlive⟩ := hg q hq.2
    rw [hdir, hlive]
    exact h.outside q hq.1

/-- Pages that were handed out stay with whoever asked for them, but for those of the processes in
`gone`. -/
structure KeepsRanges (strict : Prop) (gone : Nat → Prop) (g g' : Ghost) : Prop where
  owner : ∀ n v, g.owner n = some (.range v) → g'.owner n = some (.range v)
  use : strict → ∀ f p n, ¬gone p → g.use f = some (.user p n) → g'.use f = some (.user p n)
  live : ∀ p, ¬gone p → g.live p → g'.live p

theorem Grows.keeps_ranges (h : Grows g g') (gone : Nat → Prop) :
    KeepsRanges strict gone g g' :=
  ⟨fun n v ho => h.owner n _ ho, fun _ f p n _ hf => h.use f _ hf, fun p _ hp => by rwa [h.live]⟩

/-- The ghost in which process `p` gets a page directory. -/
def Ghost.addDir (g : Ghost) (p n dir : Nat) : Ghost :=
  { g with
    dir := update g.dir p (some dir)
    dirPage := update g.dirPage p n
    live := fun q => g.live q ∨ q = p }

theorem Grows.keeps_ranges_add_dir (h : Grows g g') (gone : Nat → Prop) (p n dir : Nat) :
    KeepsRanges strict gone g (g'.addDir p n dir) :=
  ⟨fun n v ho => h.owner n _ ho, fun _ f p n _ hf => h.use f _ hf,
    fun q _ hq => .inl (by rwa [h.live])⟩

/-- A process gets a page directory that `create_page_dir` made. -/
theorem Frames.add_process (h : Frames strict g s) (hnone : g.dir p = none)
    (hisdir : IsDir s.mem dir) (hmap : Mapped g s.mem n dir) (howner : g.owner n = some (.dir p))
    (hempty : ∀ i < 0x300, present (s.mem dir i) = false) : Frames strict (g.addDir p n dir) s :=
  h.add_dir hnone hisdir hmap howner hempty fun q hq => by simp [hq]

theorem Ghost.add_dir_holds (hmain : p ≠ mainThread) (haligned : p % 4096 = 0)
    (hpcb : g.owner (p / 4096) = some (.pcb p)) (hpgdir : task.pgdir = n * 4096)
    (hne : task.pgdir ≠ 0) (huser : UserLayout task) (hstatus : task.status ≠ .hanging)
    (hbits : task.bitsAddr % 4096 = 0)
    (howner : ∀ i < bitmapPgCnt, g.owner (task.bitsAddr / 4096 + i) = some (.bits p)) :
    Holds (g.addDir p n dir) mainThread p task := by
  refine ⟨.inr ⟨haligned, hpcb⟩, fun hzero => absurd hzero hne, fun _ => ?_,
    fun _ _ => ⟨hbits, howner⟩⟩
  refine ⟨hmain, by simp [addDir, hpgdir], by simp [addDir], huser, ?_⟩
  simp [addDir, hstatus]

theorem Ghost.add_dir_other (g : Ghost) (n dir q : Nat) (hq : q ≠ p) :
    (g.addDir p n dir).dir q = g.dir q ∧ (g.addDir p n dir).dirPage q = g.dirPage q ∧
      ((g.addDir p n dir).live q ↔ g.live q) := by
  simp [addDir, hq]

theorem TaskInv.add_thread (ht : TaskInv g s) (task : Task) (hnew : p ∉ s.threadAllList)
    (hmain : p ≠ s.mainThread) (haligned : p % 4096 = 0) (hpcb : g.owner (p / 4096) = some (.pcb p))
    (hpgdir : task.pgdir = 0) (hstatus : task.status ≠ .hanging) :
    TaskInv g { s with
      tasks := update s.tasks p (some task)
      threadAllList := s.threadAllList ++ [p] } := by
  refine ht.add_task hnew hmain ?_ (fun _ _ => ⟨rfl, rfl, .rfl⟩) fun _ _ => id
  obtain ⟨hdir, hlive⟩ := ht.outside p hnew
  exact ⟨.inr ⟨haligned, hpcb⟩, fun _ => ⟨hdir, hlive, hstatus⟩, fun hne => absurd hpgdir hne,
    fun hne => absurd hpgdir hne⟩

/-- The state of the memory after an operation, and what became of the processes and of the pages
that were handed out. -/
structure Kept (strict : Prop) (gone : Nat → Prop) (g : Ghost) (s : Vm) (g' : Ghost) (last : Vm) :
    Prop where
  frames : Frames strict g' last
  tasks : TaskInv g' last
  ranges : KeepsRanges strict gone g g'
  list : ∀ p ∈ s.threadAllList, ¬gone p → p ∈ last.threadAllList

theorem MarksKept.of_new (hother : ∀ q, q ≠ p → last.tasks q = s.tasks q)
    (hnew : last.tasks p ≠ none) : MarksKept (fun q _ => q = p) s last := by
  intro q task htask
  by_cases hq : q = p
  · subst hq
    obtain ⟨new, hnew⟩ := Option.ne_none_iff_exists'.1 hnew
    exact ⟨new, hnew, fun j hj => absurd rfl hj⟩
  · exact ⟨task, by rw [hother q hq, htask], fun _ _ => id⟩

/-- A new kernel thread keeps the invariants. -/
theorem thread_start_spec (hf : Frames strict g s) (ht : TaskInv g s) :
    wp any threadStart s fun _ last =>
      ∃ g' p, p ∉ s.threadAllList ∧ Kept strict (fun _ => False) g s g' last ∧
        MarksKept (fun q _ => q = p) s last := by
  simp only [threadStart, wp_bind, wp_non_null, and_any]
  refine wp_mono (hf.get_kernel_pages 1 fun v => .pcb v) ?_
  rintro r mid ⟨hsame, -, -, g', hgrows, h1, hserved⟩ p rfl
  obtain ⟨haligned, -, hpages⟩ := hserved p rfl
  obtain ⟨hnone, hpcb, -⟩ := hpages 0 (by omega)
  have hheap := (h1.owned _ _ hpcb).1
  obtain ⟨hnew, hmain⟩ := ht.fresh hnone hheap
  have ht1 := ht.of_shapes hgrows.keeps_tasks hsame.same_shapes
  refine ⟨g', p, hnew, ⟨h1.congr rfl rfl rfl rfl rfl, ?_, hgrows.keeps_ranges _, ?_⟩, ?_⟩
  · have ht2 := ht1.add_thread (threadCreate (.fresh p (incPid mid.nextPid)))
      (by rwa [hsame.threadAllList]) (by rwa [hsame.mainThread]) haligned hpcb rfl (by rintro ⟨⟩)
    exact ht2.congr rfl rfl rfl
  · intro q hq _
    simp [hsame.threadAllList, hq]
  · refine MarksKept.of_new (fun q hq => ?_) (by simp)
    simp [update_of_ne hq, hsame.tasks]

/-- The control block of the main thread keeps the invariants. -/
theorem make_main_thread_spec (hf : Frames strict g s) (ht : TaskInv g s) :
    wp any makeMainThread s fun _ last =>
      ∃ g' p, p ∉ s.threadAllList ∧ Kept strict (fun _ => False) g s g' last ∧
        MarksKept (fun q _ => q = p) s last := by
  simp only [makeMainThread, wp_bind, wp_assert, and_any, decide_eq_true_eq]
  intro hnew
  refine ⟨g, s.mainThread, hnew, ⟨hf.congr rfl rfl rfl rfl rfl, ?_,
    (Extends.refl g).grows.keeps_ranges _, fun q hq _ => by simp [hq]⟩, ?_⟩
  · obtain ⟨hdir, hlive⟩ := ht.outside _ hnew
    refine ⟨ht.mainAt, ?_, ⟨_, by simp; rfl, rfl, by simp⟩, ?_, ?_⟩
    · refine List.nodup_append.2 ⟨ht.nodup, List.nodup_singleton _, ?_⟩
      rintro q hq q' hq' rfl
      obtain rfl := List.mem_singleton.1 hq'
      exact hnew hq
    · intro q hq
      by_cases hmain : q = s.mainThread
      · subst hmain
        refine ⟨_, by simp; rfl, .inl rfl, fun _ => ⟨hdir, hlive, by simp⟩, ?_, ?_⟩ <;>
          exact fun hne => absurd rfl hne
      · obtain ⟨task, htask, hholds⟩ := ht.control q (by simpa [hmain] using hq)
        exact ⟨task, by simpa [update_of_ne hmain] using htask, hholds⟩
    · intro q hq
      exact ht.outside q fun hin => hq (by simp [hin])
  · refine MarksKept.of_new (fun q hq => ?_) (by simp)
    simp [update_of_ne hq]

/-- A new process keeps the invariants. -/
theorem process_execute_spec (hf : Frames strict g s) (ht : TaskInv g s) :
    wp any processExecute s fun _ last =>
      ∃ g' p, p ∉ s.threadAllList ∧ Kept strict (fun _ => False) g s g' last ∧
        MarksKept (fun q _ => q = p) s last := by
  simp only [processExecute, initThread, allocatePid, wp_bind, wp_non_null, wp_update,
    wp_state, wp_pure, and_any]
  refine wp_mono (hf.get_kernel_pages 1 fun v => .pcb v) ?_
  rintro r s1 ⟨hsame1, -, -, g1, hgrows1, h1, hserved1⟩ p rfl
  obtain ⟨haligned, -, hpages1⟩ := hserved1 p rfl
  obtain ⟨hnone, hpcb, -⟩ := hpages1 0 (by omega)
  obtain ⟨hnew, hmain⟩ := ht.fresh hnone (h1.owned _ _ hpcb).1
  have h1' : Frames strict g1 { s1 with nextPid := incPid s1.nextPid } :=
    h1.congr rfl rfl rfl rfl rfl
  refine wp_mono (h1'.get_kernel_pages bitmapPgCnt fun _ => .bits p) ?_
  rintro r s2 ⟨hsame2, -, -, g2, hgrows2, h2, hserved2⟩ bits rfl
  obtain ⟨hbits, -, hpages2⟩ := hserved2 bits rfl
  have hdir2 : g2.dir p = none := by
    rw [hgrows2.dir, hgrows1.dir]
    exact (ht.outside p hnew).1
  refine wp_mono (h2.create_page_dir (fun _ => .dir p) fun v q hq => by
    obtain rfl : p = q := by simpa using hq
    exact hdir2) ?_
  rintro pgdir s3 ⟨hsame3, _, _, g3, hgrows3, h3, hserved3⟩
  have hsame : SameTasks s s3 :=
    hsame1.trans (SameTasks.trans (hsame2.after ⟨rfl, rfl, rfl, rfl, rfl, rfl⟩) hsame3)
  have hgrows := hgrows1.trans (hgrows2.trans hgrows3)
  have ht3 := ht.of_shapes hgrows.keeps_tasks hsame.same_shapes
  have hpcb3 := (hgrows2.trans hgrows3).owner _ _ hpcb
  have hmarks : MarksKept (fun q _ => q = p) s { s3 with
      tasks := update s3.tasks p (some { threadCreate (.fresh p (incPid s1.nextPid)) with
        pgdir := pgdir
        userprogVaddr := ⟨⟨userMapLen, fun _ => 0⟩, userVaddrStart⟩
        bitsAddr := bits })
      threadAllList := s3.threadAllList ++ [p] } := by
    refine MarksKept.of_new (fun q hq => ?_) (by simp)
    simp [update_of_ne hq, hsame.tasks]
  have hnew3 : p ∉ s3.threadAllList := by rwa [hsame.threadAllList]
  have hmain3 : p ≠ s3.mainThread := by rwa [hsame.mainThread]
  have hlist : ∀ q ∈ s.threadAllList, ¬False → q ∈ s3.threadAllList ++ [p] := by
    intro q hq _
    simp [hsame.threadAllList, hq]
  by_cases hpgdir : pgdir = 0
  · -- without a page directory the process is a kernel thread
    exact ⟨g3, p, hnew, ⟨h3.congr rfl rfl rfl rfl rfl,
      ht3.add_thread _ hnew3 hmain3 haligned hpcb3 hpgdir (by rintro ⟨⟩),
      hgrows.keeps_ranges _, hlist⟩,
      hmarks⟩
  · obtain ⟨haligned3, -, -, howner, dir, hmap, hisdir, hempty⟩ := hserved3 hpgdir
    have hdir3 : g3.dir p = none := by rw [hgrows3.dir, hdir2]
    have h4 := h3.add_process hdir3 hisdir hmap howner hempty
    refine ⟨g3.addDir p (pgdir / 4096) dir, p, hnew, ⟨h4.congr rfl rfl rfl rfl rfl, ?_,
      hgrows.keeps_ranges_add_dir _ _ _ _, hlist⟩, hmarks⟩
    refine ht3.add_task hnew3 hmain3 ?_ (g3.add_dir_other _ _) fun _ _ => id
    refine Ghost.add_dir_holds hmain3 haligned hpcb3 (by simp only; omega) hpgdir ⟨rfl,
      rfl⟩ (by rintro ⟨⟩)
      hbits fun i hi => ?_
    exact hgrows3.owner _ _ (hpages2 i hi).2.1

end LosKernel.Mm
