import LosKernel.Thread.Bystander

/-!
# Waiting for children

After `userprog/wait_exit.c`, with the part of `sys_fork` that makes a child. The calls run with
interrupts off: they are left only where they block.

`pid` and `parent_pid` have 16 bits, `exit_status` has 8. The rest of the state is history.
`parentOf` says which thread made a child or adopted it, `exits` are the values that `sys_exit`
was called with, `exitOf` says which of these calls a hanging thread has made, and `delivered` are
those that a call of `sys_wait` has returned.
-/

namespace LosKernel.WaitExit

open Prog hiding update
open Function (update update_of_ne update_self)

open Thread

variable {child parent t : Nat} {a : Action} {status parentPid : Int} {prio : UInt8}

/-- A value of type `int8_t`. -/
def toInt8 (n : Int) : Int := Int.bmod n (2 ^ 8)

/-- The threads as `sys_fork`, `sys_exit` and `sys_wait` see them. -/
structure WaitSys where
  sched : Sched
  pid : Nat → Int
  parentPid : Nat → Int
  exitStatus : Nat → Int
  nextPid : Int
  inWait : Nat → Bool
  initThread : Nat
  parentOf : Nat → Option Nat
  exits : List Int
  exitOf : Nat → Nat
  delivered : List Nat

/-- The current thread. -/
abbrev WaitSys.cur (s : WaitSys) : Nat := s.sched.cur

variable {s last : WaitSys}

namespace WaitSys

/-- Run a program of the scheduler. -/
def onSched {α : Type} (m : Thread.Call α) : Prog Stop WaitSys α :=
  zoom WaitSys.sched (fun sched s => { s with sched := sched }) m

/-- `pid2thread`. -/
def pid2thread (s : WaitSys) (pid : Int) : Option Nat :=
  s.sched.allList.find? fun t => s.pid t == pid

/-- `find_child`, for the whole list. -/
def findChild (s : WaitSys) (ppid : Int) : Option Nat :=
  s.sched.allList.find? fun t => s.parentPid t == ppid

/-- `find_hanging_child`, for the whole list. -/
def findHangingChild (s : WaitSys) (ppid : Int) : Option Nat :=
  s.sched.allList.find? fun t => s.parentPid t == ppid && s.sched.status t == .hanging

/-- `allocate_pid`. -/
def allocatePid : Prog Stop WaitSys Int := do
  Prog.update fun s => { s with nextPid := incPid s.nextPid }
  let s ← state
  pure s.nextPid

/-- Make a thread with a new pid and the given parent. -/
def make (child : Nat) (prio : UInt8) (parentPid : Int) (parent : Option Nat) :
    Prog Stop WaitSys Unit := do
  let pid ← allocatePid
  Prog.update fun s =>
    { s with
      pid := update s.pid child pid
      parentPid := update s.parentPid child parentPid
      parentOf := update s.parentOf child parent
      inWait := update s.inWait child false }
  onSched (threadStart child prio)

/-- `sys_fork`, with the page for the control block of the child. The child has the priority of its
parent. -/
def sysFork (child : Nat) : Prog Stop WaitSys Unit := do
  let s ← state
  make child (s.sched.tcb s.cur).priority (s.pid s.cur) (some s.cur)

/-- `init_adopt_a_child` for all threads: the children of the thread `parent` go to `init`. -/
def initAdopt (s : WaitSys) (parent : Nat) : WaitSys :=
  { s with
    parentPid := fun t =>
      if t ∈ s.sched.allList ∧ s.parentPid t = s.pid parent then 1 else s.parentPid t
    parentOf := fun t => if s.parentOf t = some parent then some s.initThread else s.parentOf t }

/-- `sys_exit`. -/
def sysExit (status : Int) : Prog Stop WaitSys Unit := do
  let s ← state
  let me := s.cur
  Prog.update fun s =>
    { s with
      exitStatus := update s.exitStatus me (toInt8 status)
      exitOf := update s.exitOf me s.exits.length
      exits := s.exits ++ [status] }
  when (s.parentPid me = -1) (halt .assertFailed)
  Prog.update fun s => s.initAdopt me
  let s ← state
  match s.pid2thread (s.parentPid me) with
  | none => halt .badAccess
  | some parent => do
    when (s.sched.status parent = .waiting) (onSched (threadUnblock parent))
    onSched (threadBlock .hanging)

/-- What `sys_wait` returned: `-1`, or the pid of a child and its status. -/
inductive Returned where
  | noChild
  | child (pid : Int) (status : Int)
  deriving DecidableEq, Repr

/-- One pass through the loop of `sys_wait`; `none` if the caller waits. -/
def waitPass : Prog Stop WaitSys (Option Returned) := do
  let s ← state
  let me := s.cur
  match s.findHangingChild (s.pid me) with
  | some child => do
    Prog.update fun s =>
      { s with
        inWait := update s.inWait me false
        delivered := s.delivered ++ [s.exitOf child] }
    onSched (threadExit child)
    pure (some (.child (s.pid child) (s.exitStatus child)))
  | none =>
    match s.findChild (s.pid me) with
    | none => do
      Prog.update fun s => { s with inWait := update s.inWait me false }
      pure (some .noChild)
    | some _ => do
      Prog.update fun s => { s with inWait := update s.inWait me true }
      onSched (threadBlock .waiting)
      pure none

/-- What the threads do: an action of the scheduler, the start of a thread without parent, a call of
`sys_fork` that makes a child or fails after it has allocated a pid, a call of `sys_exit`, a pass
through the loop of `sys_wait`. -/
inductive Act where
  | sched (a : Action)
  | start (thread : Nat) (prio : UInt8)
  | fork (child : Nat)
  | forkFails
  | exit (status : Int)
  | wait
  deriving DecidableEq, Repr

/-- Actions of the scheduler that are not the work of the calls modelled here. -/
def Plain (s : WaitSys) : Action → Prop
  | .block stat => stat = .blocked
  | .unblock t => s.sched.status t = .blocked
  | .start _ _ => False
  | .exit _ => False
  | _ => True

/-- When an action can be taken. A thread in `sys_wait` goes on with it when it runs again. A new
control block lies in a page that is not in use. -/
def Enabled (s : WaitSys) : Act → Prop
  | .sched a => (a = .timer ∨ s.inWait s.cur = false) ∧ a.Enabled s.sched ∧ s.Plain a
  | .start thread _ => s.inWait s.cur = false ∧ thread ∉ s.sched.allList ∧
      thread ≠ s.sched.mainThread
  | .fork child => s.inWait s.cur = false ∧ s.cur ≠ s.sched.idleThread ∧
      child ∉ s.sched.allList ∧ child ≠ s.sched.mainThread
  | .forkFails => s.inWait s.cur = false
  | .exit status => s.inWait s.cur = false ∧ s.cur ≠ s.sched.idleThread ∧
      -2 ^ 31 ≤ status ∧ status < 2 ^ 31
  | .wait => s.cur ≠ s.sched.idleThread

/-- What an action does. -/
def exec : Act → Prog Stop WaitSys Unit
  | .sched a => onSched a.exec
  | .start thread prio => make thread prio (-1) none
  | .fork child => sysFork child
  | .forkFails => do
    let _ ← allocatePid
    pure ()
  | .exit status => sysExit status
  | .wait => do
    let _ ← waitPass
    pure ()

/-- The calls as a system. -/
def system : System Stop WaitSys Act := ⟨Enabled, exec⟩

/-- The state after `thread_init`: `init`, the main thread and the idle thread have the pids 1, 2
and 3. -/
structure Start (s : WaitSys) : Prop where
  booted : Booted s.sched
  threads : ∃ main idle, s.sched.allList = [s.initThread, main, idle] ∧
    s.pid s.initThread = 1 ∧ s.pid main = 2 ∧ s.pid idle = 3
  status : ∀ t ∈ s.sched.allList, s.sched.status t ≠ .waiting ∧ s.sched.status t ≠ .hanging
  parents : ∀ t ∈ s.sched.allList, s.parentPid t = -1 ∧ s.parentOf t = none
  idle : s.sched.idleThread ≠ s.initThread
  nextPid : s.nextPid = 3
  inWait : ∀ t, s.inWait t = false
  exits : s.exits = []
  delivered : s.delivered = []

/-! ## What the calls do -/

/-- The state after a thread has been made. -/
def made (s : WaitSys) (child : Nat) (prio : UInt8) (parentPid : Int) (parent : Option Nat) :
    WaitSys :=
  { s with
    sched := s.sched.after (.start child prio)
    nextPid := incPid s.nextPid
    pid := update s.pid child (incPid s.nextPid)
    parentPid := update s.parentPid child parentPid
    parentOf := update s.parentOf child parent
    inWait := update s.inWait child false }

theorem make_eq (h : SchedInv s.sched) (hnew : child ∉ s.sched.allList)
    (hmain : child ≠ s.sched.mainThread) (prio : UInt8) (parentPid : Int) (parent : Option Nat) :
    make child prio parentPid parent s = .done () (s.made child prio parentPid parent) := by
  have hstart := h.thread_start_eq hnew hmain prio
  simp [make, allocatePid, bind_run, onSched, zoom, hstart, made, Sched.after]

/-- The pid under which the current thread looks for its parent in `sys_exit`. -/
def ppidAtExit (s : WaitSys) : Int := (s.initAdopt s.cur).parentPid s.cur

/-- The scheduler after `sys_exit` has woken up the parent, if it waits. -/
def wakeParent (s : WaitSys) (parent : Nat) : Sched :=
  if s.sched.status parent = .waiting then s.sched.wake parent else s.sched

/-- The state after `sys_exit`. -/
def exited (s : WaitSys) (status : Int) (parent : Nat) : WaitSys :=
  { s.initAdopt s.cur with
    sched := (s.wakeParent parent).after (.block .hanging)
    exitStatus := update s.exitStatus s.cur (toInt8 status)
    exitOf := update s.exitOf s.cur s.exits.length
    exits := s.exits ++ [status] }

theorem wake_parent_same (s : WaitSys) (parent : Nat) : (s.wakeParent parent).cur = s.cur ∧
    (s.wakeParent parent).idleThread = s.sched.idleThread ∧
    (s.wakeParent parent).allList = s.sched.allList := by
  unfold wakeParent
  split <;> exact ⟨rfl, rfl, rfl⟩

/-- Waking the parent up keeps the invariant of the scheduler. -/
theorem wake_parent_inv (h : SchedInv s.sched) (hin : parent ∈ s.sched.allList) :
    SchedInv (s.wakeParent parent) := by
  unfold wakeParent
  split
  case isTrue hwaiting => exact h.wake_inv hin (.inr (.inl hwaiting))
  case isFalse => exact h

theorem mem_of_pid2thread {pid : Int} (h : s.pid2thread pid = some t) :
    t ∈ s.sched.allList ∧ s.pid t = pid :=
  ⟨List.mem_of_find?_eq_some h, by simpa using List.find?_some h⟩

/-- `sys_exit` stops if the caller has no parent. -/
theorem sys_exit_eq (h : SchedInv s.sched) (hidle : s.cur ≠ s.sched.idleThread)
    (status : Int) :
    sysExit status s =
      if s.parentPid s.cur = -1 then .stop .assertFailed
      else match s.pid2thread s.ppidAtExit with
        | none => .stop .badAccess
        | some parent => .done () (s.exited status parent) := by
  by_cases hparent : s.parentPid s.cur = -1
  · simp [sysExit, bind_run, when, hparent]
  · cases hfind : s.pid2thread s.ppidAtExit with
    | none =>
      simp only [pid2thread, ppidAtExit, initAdopt] at hfind
      simp [sysExit, bind_run, when, hparent, ret, pid2thread, initAdopt, hfind]
    | some parent =>
      have hin := (mem_of_pid2thread hfind).1
      have hblock := (wake_parent_inv h hin).thread_block_eq blocking_hanging
        (by unfold wakeParent; split <;> exact fun heq => absurd heq hidle)
      simp only [pid2thread, ppidAtExit, initAdopt] at hfind
      by_cases hwaiting : s.sched.status parent = .waiting
      · have hunblock := h.thread_unblock_eq (.inr (.inl hwaiting))
        simp only [wakeParent, hwaiting, if_true] at hblock
        simp [sysExit, bind_run, when, hparent, ret, pid2thread, initAdopt, hfind,
          hwaiting, onSched, zoom, hunblock, hblock, exited, wakeParent, Sched.after]
      · simp only [wakeParent, hwaiting, if_false] at hblock
        simp [sysExit, bind_run, when, hparent, ret, pid2thread, initAdopt, hfind,
          hwaiting, onSched, zoom, hblock, exited, wakeParent, Sched.after]

/-- The state after a hanging child has been removed. -/
def reaped (s : WaitSys) (child : Nat) : WaitSys :=
  { s with
    sched := s.sched.after (.exit child)
    inWait := update s.inWait s.cur false
    delivered := s.delivered ++ [s.exitOf child] }

/-- The state in which the current thread waits for a child. -/
def waits (s : WaitSys) : WaitSys :=
  { s with
    sched := s.sched.after (.block .waiting)
    inWait := update s.inWait s.cur true }

theorem wait_pass_eq (h : SchedInv s.sched) (hidle : s.cur ≠ s.sched.idleThread) :
    waitPass s =
      match s.findHangingChild (s.pid s.cur) with
      | some child => .done (some (.child (s.pid child) (s.exitStatus child))) (s.reaped child)
      | none =>
        match s.findChild (s.pid s.cur) with
        | none =>
          .done (some .noChild) { s with inWait := update s.inWait s.cur false }
        | some _ => .done none s.waits := by
  have hblock := h.thread_block_eq blocking_waiting fun heq => absurd heq hidle
  cases hhang : s.findHangingChild (s.pid s.cur) with
  | some child =>
    simp [waitPass, bind_run, hhang, onSched, zoom, thread_exit_eq, reaped, Sched.after]
  | none =>
    cases hchild : s.findChild (s.pid s.cur) with
    | none => simp [waitPass, bind_run, hhang, hchild]
    | some child =>
      simp [waitPass, bind_run, hhang, hchild, onSched, zoom, hblock, waits, Sched.after]

/-! ## Waiting parents and hanging children -/

/-- No waiting thread has a hanging child. -/
def NoStuckParent (s : WaitSys) : Prop :=
  ∀ q ∈ s.sched.allList, ∀ c ∈ s.sched.allList, s.sched.status q = .waiting →
    s.parentPid c = s.pid q → s.sched.status c ≠ .hanging

/-- The threads that wait for a child or for their parent. -/
def Asleep (stat : TaskStatus) : Prop := stat = .waiting ∨ stat = .hanging

/-- A thread that sleeps after an action of another thread slept before. -/
theorem asleep_before {x : Sched} (h : SchedInv x) (henabled : a.Enabled x)
    (hblocks : IdleBlocks x a) (hin : t ∈ x.allList) (hcur : t ≠ x.cur) (hspares : a.Spares t)
    (hasleep : Asleep ((x.after a).status t)) : (x.after a).status t = x.status t := by
  have hinv := h.after_inv henabled hblocks
  have hidle : t ≠ x.idleThread := by
    rintro rfl
    have hstatus := hinv.idle
    rcases hasleep with hasleep | hasleep <;> simp [hasleep] at hstatus
  have hby := h.after_bystander henabled hblocks hin hcur hidle hspares
  rcases hby.status with ⟨-, hsame⟩ | ⟨hnow, -, -⟩
  · exact hsame
  · have hrunning := hinv.cur_running
    rw [← hnow] at hrunning
    rcases hasleep with hasleep | hasleep <;> simp [hrunning] at hasleep

theorem plain_cur (h : SchedInv s.sched) (henabled : a.Enabled s.sched) (hplain : s.Plain a) :
    ¬Asleep ((s.sched.after a).status s.cur) := by
  have hrun := h.cur_running
  have hdispatch : ∀ mid : Sched, ¬Asleep (mid.status s.cur) →
      ¬Asleep (mid.dispatch.status s.cur) := by
    intro mid hmid
    by_cases hnext : s.cur = mid.next
    · rw [hnext]
      simp [Asleep]
    · rwa [mid.dispatch_status_ne hnext]
  cases a with
  | timer =>
    simp only [Sched.after]
    split
    · exact hdispatch _ (by simp [Sched.preempt, Asleep])
    · have hstatus : (s.sched.tcb s.cur).status = .running := hrun
      simp [Sched.tick, Asleep, hstatus]
  | block stat =>
    have hstat : stat = .blocked := hplain
    exact hdispatch _ (by simp [Sched.blockCur, Asleep, hstat])
  | unblock p =>
    have hne : s.cur ≠ p := by
      rintro rfl
      have hblocked : s.sched.status s.cur = .blocked := hplain
      simp [hrun] at hblocked
    have hsame : (s.sched.wake p).status s.cur = s.sched.status s.cur := by
      rw [Sched.status, s.sched.wake_tcb_ne hne, Sched.status]
    show ¬Asleep ((s.sched.wake p).status s.cur)
    simp [hsame, hrun, Asleep]
  | yield => exact hdispatch _ (by simp [Sched.yieldCur, Asleep])
  | start => exact hplain.elim
  | exit => exact hplain.elim
  | setIntr status =>
    show ¬Asleep (s.sched.status s.cur)
    simp [hrun, Asleep]

/-- The idle thread blocks with `TASK_BLOCKED` in a plain action. -/
theorem plain_idle_blocks (hplain : s.Plain a) : IdleBlocks s.sched a := by
  cases a with
  | block stat => exact fun _ => hplain
  | timer | unblock | yield | start | exit | setIntr => exact trivial

theorem asleep_of_plain (h : SchedInv s.sched) (henabled : a.Enabled s.sched) (hplain : s.Plain a)
    (hin : t ∈ s.sched.allList) (hasleep : Asleep ((s.sched.after a).status t)) :
    (s.sched.after a).status t = s.sched.status t := by
  have hblocks := plain_idle_blocks hplain
  have hcur : t ≠ s.cur := by
    rintro rfl
    exact plain_cur h henabled hplain hasleep
  refine asleep_before h henabled hblocks hin hcur ?_ hasleep
  cases a with
  | unblock p =>
    rintro rfl
    have hready : (s.sched.wake p).status p = .ready := by simp [Sched.wake]
    have hnow : Asleep ((s.sched.wake p).status p) := hasleep
    simp [hready, Asleep] at hnow
  | exit => exact hplain.elim
  | timer | block | yield | start | setIntr => exact trivial

theorem plain_all_list (hplain : s.Plain a) : (s.sched.after a).allList = s.sched.allList := by
  cases a with
  | timer =>
    simp only [Sched.after]
    split <;> rfl
  | start => exact hplain.elim
  | exit => exact hplain.elim
  | block | unblock | yield | setIntr => rfl

/-- What `sys_exit` needs for no parent to be stuck: every thread that goes on waiting is not the
parent of the caller, and if it has the pid of `init`, then no child of the caller hangs. -/
def ExitSafe (s : WaitSys) : Act → Prop
  | .exit _ => ∀ q ∈ s.sched.allList, s.sched.status q = .waiting →
      s.pid2thread s.ppidAtExit ≠ some q →
        s.pid q ≠ s.ppidAtExit ∧
          (s.pid q = 1 → ∀ c ∈ s.sched.allList, s.parentPid c = s.pid s.cur →
            s.sched.status c ≠ .hanging)
  | _ => True

/-- A thread that sleeps after `sys_exit` is the caller, or it slept before and is not the parent
that has been woken up. -/
theorem asleep_of_exited (h : SchedInv s.sched) (hidle : s.cur ≠ s.sched.idleThread)
    (hparent : parent ∈ s.sched.allList) (hin : t ∈ s.sched.allList) (hcur : t ≠ s.cur)
    (hasleep : Asleep ((s.exited status parent).sched.status t)) :
    (s.exited status parent).sched.status t = s.sched.status t ∧
      (s.sched.status t = .waiting → t ≠ parent) := by
  have hwake := wake_parent_inv h hparent
  obtain ⟨hcur', hidle', hall⟩ := s.wake_parent_same parent
  have hblocks : IdleBlocks (s.wakeParent parent) (.block .hanging) := by
    intro heq
    rw [hcur', hidle'] at heq
    exact absurd heq hidle
  have hkeep : (s.exited status parent).sched.status t = (s.wakeParent parent).status t :=
    asleep_before hwake (a := .block .hanging) (.inr (.inr rfl)) hblocks (hall ▸ hin) (hcur' ▸ hcur)
      trivial hasleep
  rw [hkeep] at hasleep ⊢
  by_cases hwaiting : s.sched.status parent = .waiting
  · have hsched : s.wakeParent parent = s.sched.wake parent := if_pos hwaiting
    rw [hsched] at hasleep ⊢
    have htp : t ≠ parent := by
      rintro rfl
      simp [Sched.wake, Asleep] at hasleep
    exact ⟨by rw [Sched.status, s.sched.wake_tcb_ne htp, Sched.status], fun _ => htp⟩
  · have hsched : s.wakeParent parent = s.sched := if_neg hwaiting
    rw [hsched]
    refine ⟨rfl, ?_⟩
    rintro ht rfl
    exact hwaiting ht

theorem exited_all_list (s : WaitSys) (status : Int) (parent : Nat) :
    (s.exited status parent).sched.allList = s.sched.allList :=
  (s.wake_parent_same parent).2.2

section

variable (h : SchedInv s.sched)

include h

/-- A safe exit leaves no parent stuck. -/
theorem NoStuckParent.exited (hstuck : NoStuckParent s) (hidle : s.cur ≠ s.sched.idleThread)
    (hparent : s.pid2thread s.ppidAtExit = some parent) (hsafe : ExitSafe s (.exit status)) :
    NoStuckParent (s.exited status parent) := by
  have hin := (mem_of_pid2thread hparent).1
  have hself : (s.exited status parent).sched.status s.cur ≠ .waiting := by
    obtain ⟨hcur, hidle', -⟩ := s.wake_parent_same parent
    have hblocked := (wake_parent_inv h hin).blocked_cur blocking_hanging (by rwa [hcur, hidle'])
    rw [hcur] at hblocked
    have hstatus : (s.exited status parent).sched.status s.cur = .hanging := hblocked.2.1
    simp [hstatus]
  intro q hq c hc hwaiting hchild hhang
  rw [exited_all_list] at hq hc
  have hqc : q ≠ s.cur := by
    rintro rfl
    exact hself hwaiting
  obtain ⟨hqsame, hqp⟩ := asleep_of_exited h hidle hin hq hqc (.inl hwaiting)
  rw [hwaiting] at hqsame
  have hother : s.pid2thread s.ppidAtExit ≠ some q := by
    rw [hparent]
    exact fun heq => hqp hqsame.symm (Option.some.inj heq).symm
  obtain ⟨hppid, hinit⟩ := hsafe q hq hqsame.symm hother
  by_cases hcc : c = s.cur
  · rw [hcc] at hchild
    exact hppid hchild.symm
  · obtain ⟨hcsame, -⟩ := asleep_of_exited h hidle hin hc hcc (.inr hhang)
    rw [hhang] at hcsame
    have hchild' : (if c ∈ s.sched.allList ∧ s.parentPid c = s.pid s.cur then 1
        else s.parentPid c) = s.pid q := hchild
    split at hchild'
    · rename_i hadopted
      exact hinit hchild'.symm c hc hadopted.2 hcsame.symm
    · exact hstuck q hq c hc hqsame.symm hchild' hcsame.symm

/-- The threads that are left after the removal of a child. -/
theorem reaped_old (ht : t ∈ (s.reaped child).sched.allList) :
    t ∈ s.sched.allList ∧ t ≠ child ∧ (s.reaped child).sched.status t = s.sched.status t := by
  have hboth := h.allNodup.mem_erase_iff.1 (show t ∈ s.sched.allList.erase child from ht)
  refine ⟨hboth.2, hboth.1, ?_⟩
  show (s.sched.remove child).status t = s.sched.status t
  rw [Sched.status, s.sched.remove_tcb_ne hboth.1, Sched.status]

/-- A `sys_wait` that returns leaves no parent stuck. -/
theorem NoStuckParent.reaped (hstuck : NoStuckParent s) : NoStuckParent (s.reaped child) := by
  intro q hq c hc
  obtain ⟨hqin, -, hqsame⟩ := reaped_old h hq
  obtain ⟨hcin, -, hcsame⟩ := reaped_old h hc
  rw [hqsame, hcsame]
  exact hstuck q hqin c hcin

/-- The threads other than the caller that sleep while it waits. -/
theorem asleep_of_waits (hidle : s.cur ≠ s.sched.idleThread) (ht : t ∈ s.sched.allList)
    (hne : t ≠ s.cur) (hasleep : Asleep (s.waits.sched.status t)) :
    s.waits.sched.status t = s.sched.status t :=
  asleep_before h (a := .block .waiting) blocking_waiting (fun heq => absurd heq hidle)
  ht hne trivial
    hasleep

/-- The caller waits, so a thread that hangs is another one. -/
theorem hanging_of_waits (hidle : s.cur ≠ s.sched.idleThread) (ht : t ∈ s.sched.allList)
    (hhang : s.waits.sched.status t = .hanging) : s.sched.status t = .hanging := by
  refine asleep_of_waits h hidle ht ?_ (.inr hhang) ▸ hhang
  rintro rfl
  have hself := (h.blocked_cur blocking_waiting hidle).2.1
  rw [waits] at hhang
  simp [hself] at hhang

/-- One that goes to sleep is not stuck. -/
theorem NoStuckParent.waits (hstuck : NoStuckParent s) (hidle : s.cur ≠ s.sched.idleThread)
    (hnone : s.findHangingChild (s.pid s.cur) = none) : NoStuckParent s.waits := by
  intro q hq c hc hwaiting hchild hhang
  have hold := hanging_of_waits h hidle hc hhang
  by_cases hqc : q = s.cur
  · rw [hqc] at hchild
    have hfind := List.find?_eq_none.1 hnone c hc
    simp [show s.parentPid c = s.pid s.cur from hchild, hold] at hfind
  · have hqsame := asleep_of_waits h hidle hq hqc (.inl hwaiting)
    rw [hwaiting] at hqsame
    exact hstuck q hq c hc hqsame.symm hchild hold

end

theorem made_old {parent : Option Nat}
    (ht : t ∈ (s.made child prio parentPid parent).sched.allList) (hne : t ≠ child) :
    t ∈ s.sched.allList ∧
      (s.made child prio parentPid parent).sched.status t = s.sched.status t := by
  have hin : t ∈ s.sched.allList ++ [child] := ht
  simp only [List.mem_append, List.mem_singleton, hne, or_false] at hin
  refine ⟨hin, ?_⟩
  show (s.sched.add child prio).status t = s.sched.status t
  rw [Sched.status, s.sched.add_tcb_ne prio hne, Sched.status]

theorem made_status_child (s : WaitSys) (child : Nat) (prio : UInt8) (parentPid : Int)
    (parent : Option Nat) : (s.made child prio parentPid parent).sched.status child = .ready := by
  show (s.sched.add child prio).status child = .ready
  simp [Sched.add]

/-- A new thread leaves no parent stuck. -/
theorem NoStuckParent.made (hstuck : NoStuckParent s) (hnew : child ∉ s.sched.allList)
    (prio : UInt8) (parentPid : Int) (parent : Option Nat) :
    NoStuckParent (s.made child prio parentPid parent) := by
  intro q hq c hc hwaiting hpid hhang
  have hqc : q ≠ child := by
    rintro rfl
    simp [made_status_child] at hwaiting
  have hcc : c ≠ child := by
    rintro rfl
    simp [made_status_child] at hhang
  obtain ⟨hq', hqs⟩ := made_old hq hqc
  obtain ⟨hc', hcs⟩ := made_old hc hcc
  have hpid' : s.parentPid c = s.pid q := by simpa [WaitSys.made, hqc, hcc] using hpid
  exact hstuck q hq' c hc' (hqs ▸ hwaiting) hpid' (hcs ▸ hhang)

/-- What an action that returns has done. -/
inductive Result (s : WaitSys) : Act → WaitSys → Prop
  | sched {a : Action} (henabled : a.Enabled s.sched) (hplain : s.Plain a) :
      Result s (.sched a) { s with sched := s.sched.after a }
  | start {thread : Nat} {prio : UInt8} (hnew : thread ∉ s.sched.allList) :
      Result s (.start thread prio) (s.made thread prio (-1) none)
  | fork {child : Nat} {prio : UInt8} (hnew : child ∉ s.sched.allList) :
      Result s (.fork child) (s.made child prio (s.pid s.cur) (some s.cur))
  | forkFails : Result s .forkFails { s with nextPid := incPid s.nextPid }
  | exit {status : Int} {parent : Nat} (hidle : s.cur ≠ s.sched.idleThread)
      (hppid : s.parentPid s.cur ≠ -1)
      (hparent : s.pid2thread s.ppidAtExit = some parent) :
      Result s (.exit status) (s.exited status parent)
  | reap {child : Nat} (hidle : s.cur ≠ s.sched.idleThread)
      (hchild : s.findHangingChild (s.pid s.cur) = some child) :
      Result s .wait (s.reaped child)
  | noChild (hnone : s.findChild (s.pid s.cur) = none) :
      Result s .wait { s with inWait := update s.inWait s.cur false }
  | wait (hidle : s.cur ≠ s.sched.idleThread)
      (hnone : s.findHangingChild (s.pid s.cur) = none) : Result s .wait s.waits

theorem result_of_done (h : SchedInv s.sched) {a : Act} (henabled : Enabled s a)
    (hdone : exec a s = .done () last) : Result s a last := by
  cases a with
  | sched a =>
    obtain ⟨-, henabled, hplain⟩ := henabled
    have hexec := h.exec_eq henabled (plain_idle_blocks hplain)
    obtain rfl : _ = last := by simpa [exec, onSched, zoom, hexec] using hdone
    exact .sched henabled hplain
  | start thread prio =>
    obtain ⟨-, hnew, hmain⟩ := henabled
    rw [show exec (.start thread prio) s = make thread prio (-1) none s from rfl,
      make_eq h hnew hmain] at hdone
    obtain rfl : _ = last := by simpa using hdone
    exact .start hnew
  | fork child =>
    obtain ⟨-, -, hnew, hmain⟩ := henabled
    simp only [exec, sysFork, bind_run, state_run] at hdone
    rw [make_eq h hnew hmain] at hdone
    obtain rfl : _ = last := by simpa using hdone
    exact .fork hnew
  | forkFails =>
    obtain rfl : _ = last := by simpa [exec, allocatePid, bind_run] using hdone
    exact .forkFails
  | exit status =>
    have hidle := henabled.2.1
    rw [show exec (.exit status) s = sysExit status s from rfl, sys_exit_eq h hidle] at hdone
    split at hdone
    · simp at hdone
    · rename_i hppid
      split at hdone
      · simp at hdone
      · rename_i parent hparent
        obtain rfl : _ = last := by simpa using hdone
        exact .exit hidle hppid hparent
  | wait =>
    have hidle : s.cur ≠ s.sched.idleThread := henabled
    simp only [exec, bind_run, wait_pass_eq h hidle] at hdone
    cases hhang : s.findHangingChild (s.pid s.cur) with
    | some child =>
      obtain rfl : _ = last := by simpa [hhang] using hdone
      exact .reap hidle hhang
    | none =>
      cases hchild : s.findChild (s.pid s.cur) with
      | none =>
        obtain rfl : _ = last := by simpa [hhang, hchild] using hdone
        exact .noChild hchild
      | some child =>
        obtain rfl : _ = last := by simpa [hhang, hchild] using hdone
        exact .wait hidle hhang

/-- A thread that hangs after `make` is an old one. -/
theorem hanging_of_made {parent : Option Nat}
    (ht : t ∈ (s.made child prio parentPid parent).sched.allList)
    (hhang : (s.made child prio parentPid parent).sched.status t = .hanging) :
    t ∈ s.sched.allList ∧ s.sched.status t = .hanging := by
  have hne : t ≠ child := by
    rintro rfl
    simp [made_status_child] at hhang
  obtain ⟨hin, hsame⟩ := made_old ht hne
  exact ⟨hin, hsame ▸ hhang⟩

/-- What `find_hanging_child` finds. -/
theorem hanging_of_find {ppid : Int} (h : s.findHangingChild ppid = some child) :
    child ∈ s.sched.allList ∧ s.parentPid child = ppid ∧ s.sched.status child = .hanging := by
  have hfound := List.find?_some h
  simp only [Bool.and_eq_true, beq_iff_eq] at hfound
  exact ⟨List.mem_of_find?_eq_some h, hfound.1, hfound.2⟩

/-- Every action keeps the invariant of the scheduler. -/
theorem Result.sched_inv {a : Act} (hresult : Result s a last) (h : SchedInv s.sched) :
    SchedInv last.sched := by
  cases hresult with
  | sched henabled hplain => exact h.after_inv henabled (plain_idle_blocks hplain)
  | start hnew => exact h.add_inv hnew _
  | fork hnew => exact h.add_inv hnew _
  | forkFails => exact h
  | exit hidle _ hparent =>
    refine (wake_parent_inv h (mem_of_pid2thread hparent).1).after_inv (a := .block .hanging)
      blocking_hanging ?_
    unfold wakeParent
    split <;> exact fun heq => absurd heq hidle
  | reap _ hchild => exact h.remove_inv (hanging_of_find hchild).2.2
  | noChild => exact h
  | wait hidle =>
    exact h.after_inv (a := .block .waiting) blocking_waiting fun heq => absurd heq hidle

/-- Every action that is safe leaves no parent stuck. -/
theorem Result.no_stuck_parent {a : Act} (hresult : Result s a last) (h : SchedInv s.sched)
    (hstuck : NoStuckParent s) (hsafe : ExitSafe s a) : NoStuckParent last := by
  cases hresult with
  | sched henabled hplain =>
    intro q hq c hc hwaiting hchild hhang
    rw [plain_all_list hplain] at hq hc
    have hqsame := asleep_of_plain h henabled hplain hq (.inl hwaiting)
    have hcsame := asleep_of_plain h henabled hplain hc (.inr hhang)
    exact hstuck q hq c hc (hqsame ▸ hwaiting) hchild (hcsame ▸ hhang)
  | start hnew => exact hstuck.made hnew _ _ _
  | fork hnew => exact hstuck.made hnew _ _ _
  | forkFails => exact hstuck
  | exit hidle _ hparent => exact hstuck.exited h hidle hparent hsafe
  | reap => exact hstuck.reaped h
  | noChild => exact hstuck
  | wait hidle hnone => exact hstuck.waits h hidle hnone

/-- In every state that is reached by safe calls, no waiting thread has a hanging child. -/
theorem no_stuck_parent_of_run (hstart : Start s) (hrun : system.Run ExitSafe s last) :
    NoStuckParent last := by
  have hstep : ∀ s a, SchedInv s.sched ∧ NoStuckParent s → system.Enabled s a → ExitSafe s a →
      wp any (system.exec a) s fun _ last => SchedInv last.sched ∧ NoStuckParent last := by
    intro s a h henabled hsafe
    refine wp_any_iff.2 fun _ last hdone => ?_
    have hresult := result_of_done h.1 henabled hdone
    exact ⟨hresult.sched_inv h.1, hresult.no_stuck_parent h.1 h.2 hsafe⟩
  have hbase : NoStuckParent s := fun q hq _ _ hwaiting => absurd hwaiting (hstart.status q hq).1
  exact (System.Run.invariant hstep hrun ⟨booted_inv hstart.booted, hbase⟩).2

/-! ## A grandchild that hangs -/

instance (s : WaitSys) : (a : Action) → Decidable (s.Plain a)
  | .timer | .block _ | .unblock _ | .yield | .start _ _ | .exit _ | .setIntr _ => by
    unfold Plain
    infer_instance

instance (s : WaitSys) (a : Act) : Decidable (system.Enabled s a) := by
  cases a <;> dsimp only [system, Enabled] <;> infer_instance

instance (s : WaitSys) (a : Act) : Decidable (ExitSafe s a) := by
  cases a <;> unfold ExitSafe <;> infer_instance

/-- The state after `thread_init` with three control blocks. -/
def three : WaitSys where
  sched := Sched.three
  pid := fun t => if t = 0xc0100000 then 1 else if t = 0xc009e000 then 2 else 3
  parentPid := fun _ => -1
  exitStatus := fun _ => 0
  nextPid := 3
  inWait := fun _ => false
  initThread := 0xc0100000
  parentOf := fun _ => none
  exits := []
  exitOf := fun _ => 0
  delivered := []

theorem three_start : Start three where
  booted := three_booted
  threads := ⟨0xc009e000, 0xc0101000, rfl, rfl, rfl, rfl⟩
  status := by decide
  parents := fun _ _ => ⟨rfl, rfl⟩
  idle := by decide
  nextPid := rfl
  inWait := fun _ => rfl
  exits := rfl
  delivered := rfl

/-- `init` makes a child and waits for it. The other threads are idle. -/
def initWaits : List Act :=
  [.sched .yield, .fork 0xc0102000, .wait, .sched (.block .blocked), .sched (.block .blocked)]

/-- `init` waits, and its child exits. -/
theorem no_stuck_parent_small : ∃ last, system.Run ExitSafe three last ∧
    last.sched.status 0xc0102000 = .hanging ∧ last.parentPid 0xc0102000 = 1 ∧
    NoStuckParent last := by
  obtain ⟨last, hrun, hhang, hppid⟩ := system.exists_run_of_follow ExitSafe
    (initWaits ++ [.exit 7]) three
    (fun s => s.sched.status 0xc0102000 = .hanging ∧ s.parentPid 0xc0102000 = 1) (by decide)
  exact ⟨last, hrun, hhang, hppid, no_stuck_parent_of_run three_start hrun⟩

/-- `init` waits for its child, which has a child and a grandchild. The grandchild exits, then its
parent: `init` adopts the grandchild and goes on waiting. -/
theorem adopted_child_hangs : ∃ last, system.Run (fun _ _ => True) three last ∧
    ¬NoStuckParent last := by
  obtain ⟨last, hrun, hinit, hchild, hwaiting, hparent, hhang⟩ :=
    system.exists_run_of_follow (fun _ _ => True) (initWaits ++ [.fork 0xc0103000, .sched .yield,
      .fork 0xc0104000, .sched .yield, .sched .yield, .exit 0, .exit 0]) three
      (fun s => 0xc0100000 ∈ s.sched.allList ∧ 0xc0104000 ∈ s.sched.allList ∧
        s.sched.status 0xc0100000 = .waiting ∧ s.parentPid 0xc0104000 = s.pid 0xc0100000 ∧
        s.sched.status 0xc0104000 = .hanging) (by decide)
  exact ⟨last, hrun, fun hstuck => hstuck _ hinit _ hchild hwaiting hparent hhang⟩

/-! ## Delivery of exits -/

/-- A pass through the loop of `sys_wait` from `s` to `last` that returns tells the truth: there
is no child, or a child of the caller has called `sys_exit` with the status returned, this exit
has not been delivered before, and the child is no longer a thread. -/
def ReturnOk (s last : WaitSys) : Returned → Prop
  | .noChild => ∀ c ∈ s.sched.allList, s.parentOf c ≠ some s.cur
  | .child pid status => pid ≠ -1 ∧ ∃ c ∈ s.sched.allList, s.parentOf c = some s.cur ∧
      s.pid c = pid ∧ s.exits[s.exitOf c]? = some status ∧ s.exitOf c ∉ s.delivered ∧
      last.delivered = s.delivered ++ [s.exitOf c] ∧ c ∉ last.sched.allList

/-- What `sys_wait` promises in a state. -/
structure WaitOk (s : WaitSys) : Prop where
  returns : ∀ r last, Enabled s .wait → waitPass s = .done (some r) last → ReturnOk s last r
  alone : Enabled s .wait → (∀ c ∈ s.sched.allList, s.parentOf c ≠ some s.cur) →
    ∃ last, waitPass s = .done (some .noChild) last
  once : s.delivered.Nodup

/-- New threads get a pid that no thread has and that is not -1. -/
def FreshPids (s : WaitSys) : Act → Prop
  | .start _ _ | .fork _ => incPid s.nextPid ≠ -1 ∧
      ∀ t ∈ s.sched.allList, s.pid t ≠ incPid s.nextPid
  | _ => True

/-- New threads get a new pid, and statuses fit into `exit_status`. -/
def SafeCalls (s : WaitSys) (a : Act) : Prop :=
  FreshPids s a ∧
    match a with
    | .exit status => -128 ≤ status ∧ status ≤ 127
    | _ => True

/-- The invariant of parents and children. -/
structure Family (s : WaitSys) : Prop where
  sched : SchedInv s.sched
  pids : ∀ t ∈ s.sched.allList, ∀ u ∈ s.sched.allList, s.pid t = s.pid u → t = u
  notMinus : ∀ t ∈ s.sched.allList, s.pid t ≠ -1
  init : s.initThread ∈ s.sched.allList ∧ s.pid s.initThread = 1 ∧
    s.parentPid s.initThread = -1 ∧ s.sched.status s.initThread ≠ .hanging
  parents : ∀ c ∈ s.sched.allList, s.parentOf c = none ∧ s.parentPid c = -1 ∨
    ∃ q ∈ s.sched.allList, s.parentOf c = some q ∧ s.parentPid c = s.pid q ∧
      s.sched.status q ≠ .hanging

/-- The invariant of exits and their delivery. -/
structure Exits (s : WaitSys) : Prop where
  hanging : ∀ c ∈ s.sched.allList, s.sched.status c = .hanging →
    s.exits[s.exitOf c]? = some (s.exitStatus c) ∧ s.exitOf c ∉ s.delivered
  apart : ∀ c ∈ s.sched.allList, ∀ d ∈ s.sched.allList, s.sched.status c = .hanging →
    s.sched.status d = .hanging → s.exitOf c = s.exitOf d → c = d
  bound : ∀ i ∈ s.delivered, i < s.exits.length
  once : s.delivered.Nodup

/-- The processes after `thread_init` are a family. -/
theorem Start.family (h : Start s) : Family s := by
  obtain ⟨main, idle, hall, hinit, hmain, hidle⟩ := h.threads
  have hcases : ∀ t ∈ s.sched.allList, t = s.initThread ∨ t = main ∨ t = idle := by
    intro t ht
    simpa [hall] using ht
  have hin : s.initThread ∈ s.sched.allList := by simp [hall]
  refine ⟨booted_inv h.booted, fun t ht u hu heq => ?_, fun t ht => ?_,
    ⟨hin, hinit, (h.parents _ hin).1, (h.status _ hin).2⟩,
    fun c hc => .inl ⟨(h.parents c hc).2, (h.parents c hc).1⟩⟩
  · rcases hcases t ht with rfl | rfl | rfl <;> rcases hcases u hu with rfl | rfl | rfl <;> simp_all
  · rcases hcases t ht with rfl | rfl | rfl <;> simp_all

/-- No exit has been made after `thread_init`. -/
theorem Start.exits_inv (h : Start s) : Exits s where
  hanging := fun c hc hhang => absurd hhang (h.status c hc).2
  apart := fun c hc _ _ hhang => absurd hhang (h.status c hc).2
  bound := by simp [h.delivered]
  once := by simp [h.delivered]

/-- The parent whose pid a thread has is its parent. -/
theorem Family.parent_eq (h : Family s) {c q : Nat} (hc : c ∈ s.sched.allList)
    (hq : q ∈ s.sched.allList) : s.parentPid c = s.pid q ↔ s.parentOf c = some q := by
  rcases h.parents c hc with ⟨hnone, hpid⟩ | ⟨p, hp, hparent, hpid, -⟩
  · rw [hpid, hnone]
    exact iff_of_false (fun heq => h.notMinus q hq heq.symm) (by simp)
  · rw [hpid, hparent, Option.some.injEq]
    exact ⟨fun heq => h.pids p hp q hq heq, fun heq => by rw [heq]⟩

/-- What the invariants say about a pass of `sys_wait`. -/
theorem Family.wait_ok (h : Family s) (hexits : Exits s) : WaitOk s := by
  have hcur := h.sched.curIn
  refine ⟨fun r last hidle hdone => ?_, fun hidle halone => ?_, hexits.once⟩
  · rw [wait_pass_eq h.sched hidle] at hdone
    cases hhang : s.findHangingChild (s.pid s.cur) with
    | some child =>
      obtain ⟨hin, hppid, hstatus⟩ := hanging_of_find hhang
      obtain ⟨hexit, hnew⟩ := hexits.hanging child hin hstatus
      simp only [hhang] at hdone
      obtain ⟨rfl, rfl⟩ := hdone
      refine ⟨h.notMinus child hin, child, hin, (h.parent_eq hin hcur).1 hppid, rfl, hexit, hnew,
        rfl, fun hstill => ?_⟩
      exact (h.sched.allNodup.mem_erase_iff.1 hstill).1 rfl
    | none =>
      cases hchild : s.findChild (s.pid s.cur) with
      | none =>
        simp only [hhang, hchild] at hdone
        obtain ⟨rfl, -⟩ := hdone
        intro c hc hparent
        have hfind := List.find?_eq_none.1 hchild c hc
        simp [(h.parent_eq hc hcur).2 hparent] at hfind
      | some child => simp [hhang, hchild] at hdone
  · have hnot : ∀ c ∈ s.sched.allList, s.parentPid c ≠ s.pid s.cur :=
      fun c hc heq => halone c hc ((h.parent_eq hc hcur).1 heq)
    have hhang : s.findHangingChild (s.pid s.cur) = none :=
      List.find?_eq_none.2 fun c hc => by simp [hnot c hc]
    have hchild : s.findChild (s.pid s.cur) = none :=
      List.find?_eq_none.2 fun c hc => by simp [hnot c hc]
    exact ⟨_, by rw [wait_pass_eq h.sched hidle, hhang, hchild]⟩

/-- An action after which no more threads hang, and that changes neither pids nor parents. -/
theorem Family.keep (h : Family s) (hsched : SchedInv last.sched)
    (hall : last.sched.allList = s.sched.allList) (hpid : last.pid = s.pid)
    (hppid : last.parentPid = s.parentPid) (hparent : last.parentOf = s.parentOf)
    (hinit : last.initThread = s.initThread)
    (hback : ∀ t ∈ s.sched.allList, last.sched.status t = .hanging → s.sched.status t = .hanging) :
    Family last := by
  obtain ⟨hin, hone, hminus, halive⟩ := h.init
  refine ⟨hsched, ?_, ?_, ?_, ?_⟩
  · rw [hall, hpid]
    exact h.pids
  · rw [hall, hpid]
    exact h.notMinus
  · rw [hall, hpid, hppid, hinit]
    exact ⟨hin, hone, hminus, fun hhang => halive (hback _ hin hhang)⟩
  · rw [hall, hpid, hppid, hparent]
    intro c hc
    refine (h.parents c hc).imp_right ?_
    intro ⟨q, hq, hof, hpp, hstatus⟩
    exact ⟨q, hq, hof, hpp, fun hhang => hstatus (hback q hq hhang)⟩

/-- The exits do not change when their part of the state does not. -/
theorem Exits.keep (h : Exits s) (hexits : last.exits = s.exits) (hof : last.exitOf = s.exitOf)
    (hstatus : last.exitStatus = s.exitStatus) (hdelivered : last.delivered = s.delivered)
    (hback : ∀ t ∈ last.sched.allList, last.sched.status t = .hanging →
      t ∈ s.sched.allList ∧ s.sched.status t = .hanging) : Exits last := by
  refine ⟨?_, ?_, ?_, hdelivered ▸ h.once⟩
  · rw [hexits, hof, hstatus, hdelivered]
    intro c hc hhang
    obtain ⟨hin, hold⟩ := hback c hc hhang
    exact h.hanging c hin hold
  · rw [hof]
    intro c hc d hd hchang hdhang
    obtain ⟨hcin, hcold⟩ := hback c hc hchang
    obtain ⟨hdin, hdold⟩ := hback d hd hdhang
    exact h.apart c hcin d hdin hcold hdold
  · rw [hexits, hdelivered]
    exact h.bound

/-- A new process gets a parent in the family. -/
theorem Family.made (h : Family s) (hnew : child ∉ s.sched.allList) (prio : UInt8)
    {parent : Option Nat} (hsafe : incPid s.nextPid ≠ -1 ∧
      ∀ t ∈ s.sched.allList, s.pid t ≠ incPid s.nextPid)
    (hparent : parent = none ∧ parentPid = -1 ∨ ∃ q ∈ s.sched.allList, parent = some q ∧
      parentPid = s.pid q ∧ s.sched.status q ≠ .hanging) :
    Family (s.made child prio parentPid parent) := by
  set last := s.made child prio parentPid parent with hlast
  have hne : ∀ t ∈ s.sched.allList, t ≠ child := by
    rintro t ht rfl
    exact hnew ht
  have hpid : ∀ t, t ≠ child → last.pid t = s.pid t := fun t ht => update_of_ne ht _ _
  have hpidChild : last.pid child = incPid s.nextPid := update_self _ _ _
  have hmem : ∀ t ∈ s.sched.allList, t ∈ last.sched.allList :=
    fun t ht => List.mem_append_left _ ht
  have hstatus : ∀ t ∈ s.sched.allList, last.sched.status t = s.sched.status t :=
    fun t ht => (made_old (hmem t ht) (hne t ht)).2
  obtain ⟨hin, hone, hminus, halive⟩ := h.init
  refine ⟨h.sched.add_inv hnew prio, fun t ht u hu heq => ?_, fun t ht => ?_, ?_, fun c hc => ?_⟩
  · by_cases htc : t = child <;> by_cases huc : u = child
    · rw [htc, huc]
    · rw [htc, hpidChild, hpid u huc] at heq
      exact absurd heq.symm (hsafe.2 u (made_old hu huc).1)
    · rw [huc, hpidChild, hpid t htc] at heq
      exact absurd heq (hsafe.2 t (made_old ht htc).1)
    · rw [hpid t htc, hpid u huc] at heq
      exact h.pids t (made_old ht htc).1 u (made_old hu huc).1 heq
  · by_cases htc : t = child
    · rw [htc, hpidChild]
      exact hsafe.1
    · rw [hpid t htc]
      exact h.notMinus t (made_old ht htc).1
  · refine ⟨hmem _ hin, ?_, ?_, ?_⟩
    · exact (hpid _ (hne _ hin)).trans hone
    · exact (update_of_ne (hne _ hin) _ _).trans hminus
    · rw [show last.initThread = s.initThread from rfl, hstatus _ hin]
      exact halive
  · by_cases hcc : c = child
    · rw [hcc]
      have hof : last.parentOf child = parent := update_self _ _ _
      have hpp : last.parentPid child = parentPid := update_self _ _ _
      rw [hof, hpp]
      refine hparent.imp_right ?_
      intro ⟨q, hq, hsome, heq, hqs⟩
      exact ⟨q, hmem q hq, hsome, by rw [hpid q (hne q hq), heq], by rwa [hstatus q hq]⟩
    · have hof : last.parentOf c = s.parentOf c := update_of_ne hcc _ _
      have hpp : last.parentPid c = s.parentPid c := update_of_ne hcc _ _
      rw [hof, hpp]
      refine (h.parents c (made_old hc hcc).1).imp_right ?_
      intro ⟨q, hq, hsome, heq, hqs⟩
      exact ⟨q, hmem q hq, hsome, by rw [hpid q (hne q hq), heq], by rwa [hstatus q hq]⟩

/-- Only the caller hangs more than before. -/
theorem hanging_of_exited (h : SchedInv s.sched) (hidle : s.cur ≠ s.sched.idleThread)
    (hparent : parent ∈ s.sched.allList) (ht : t ∈ s.sched.allList) (hne : t ≠ s.cur)
    (hhang : (s.exited status parent).sched.status t = .hanging) : s.sched.status t = .hanging :=
  (asleep_of_exited h hidle hparent ht hne (.inr hhang)).1 ▸ hhang

/-- The children of a process that exits are adopted. -/
theorem Family.exited (h : Family s) (hresult : Result s (.exit status) (s.exited status parent))
    (hidle : s.cur ≠ s.sched.idleThread) (hppid : s.parentPid s.cur ≠ -1)
    (hparent : s.pid2thread s.ppidAtExit = some parent) : Family (s.exited status parent) := by
  have hpin := (mem_of_pid2thread hparent).1
  obtain ⟨hin, hone, hminus, halive⟩ := h.init
  have hinit : s.initThread ≠ s.cur := by
    intro heq
    rw [heq] at hminus
    exact hppid hminus
  have hback : ∀ q ∈ s.sched.allList, q ≠ s.cur → s.sched.status q ≠ .hanging →
      (s.exited status parent).sched.status q ≠ .hanging :=
    fun q hq hqc hstatus hhang => hstatus (hanging_of_exited h.sched hidle hpin hq hqc hhang)
  have hpp : ∀ c, (s.exited status parent).parentPid c =
      if c ∈ s.sched.allList ∧ s.parentPid c = s.pid s.cur then 1 else s.parentPid c :=
    fun _ => rfl
  have hof : ∀ c, (s.exited status parent).parentOf c =
      if s.parentOf c = some s.cur then some s.initThread else s.parentOf c := fun _ => rfl
  refine ⟨hresult.sched_inv h.sched, ?_, ?_, ?_, fun c hc => ?_⟩
  · rw [exited_all_list]
    exact h.pids
  · rw [exited_all_list]
    exact h.notMinus
  · rw [exited_all_list]
    refine ⟨hin, hone, ?_, hback _ hin hinit halive⟩
    show (if _ then _ else _) = (-1 : Int)
    rw [if_neg]
    · exact hminus
    · intro ⟨_, heq⟩
      exact h.notMinus _ h.sched.curIn (heq.symm.trans hminus)
  · rw [exited_all_list] at hc ⊢
    rw [hpp, hof]
    rcases h.parents c hc with ⟨hnone, hpid⟩ | ⟨q, hq, hsome, hpid, hstatus⟩
    · left
      have hnot : ¬(c ∈ s.sched.allList ∧ s.parentPid c = s.pid s.cur) := by
        intro ⟨_, heq⟩
        exact h.notMinus _ h.sched.curIn (heq.symm.trans hpid)
      rw [if_neg hnot, hnone]
      exact ⟨by simp, hpid⟩
    · right
      by_cases hqc : q = s.cur
      · refine ⟨s.initThread, hin, ?_, ?_, hback _ hin hinit halive⟩
        · rw [hsome, hqc, if_pos rfl]
        · rw [if_pos ⟨hc, by rw [hpid, hqc]⟩]
          exact hone.symm
      · have hnot : ¬(c ∈ s.sched.allList ∧ s.parentPid c = s.pid s.cur) := by
          intro ⟨_, heq⟩
          exact hqc (h.pids q hq _ h.sched.curIn (hpid.symm.trans heq))
        refine ⟨q, hq, ?_, ?_, hback q hq hqc hstatus⟩
        · rw [if_neg (by rw [hsome]; exact fun heq => hqc (Option.some.inj heq)), hsome]
        · rw [if_neg hnot]
          exact hpid

theorem toInt8_eq {n : Int} (hlow : -128 ≤ n) (hhigh : n ≤ 127) : toInt8 n = n := by
  rw [toInt8, Int.bmod_eq_of_le] <;> omega

/-- An exit is recorded with its status. -/
theorem Exits.exited (h : Exits s) (hsched : SchedInv s.sched)
    (hidle : s.cur ≠ s.sched.idleThread) (hparent : s.pid2thread s.ppidAtExit = some parent)
    (hsafe : -128 ≤ status ∧ status ≤ 127) : Exits (s.exited status parent) := by
  have hpin := (mem_of_pid2thread hparent).1
  have hself : (s.exited status parent).exitOf s.cur = s.exits.length :=
    update_self _ _ _
  have hof : ∀ c, c ≠ s.cur → (s.exited status parent).exitOf c = s.exitOf c :=
    fun c hc => update_of_ne hc _ _
  have hexits : (s.exited status parent).exits = s.exits ++ [status] := rfl
  have hold : ∀ c ∈ s.sched.allList, c ≠ s.cur →
      (s.exited status parent).sched.status c = .hanging → s.exitOf c < s.exits.length ∧
        s.exits[s.exitOf c]? = some (s.exitStatus c) ∧ s.exitOf c ∉ s.delivered := by
    intro c hc hcc hhang
    obtain ⟨hexit, hnew⟩ :=
      h.hanging c hc (hanging_of_exited hsched hidle hpin hc hcc hhang)
    exact ⟨(List.getElem?_eq_some_iff.1 hexit).1, hexit, hnew⟩
  refine ⟨fun c hc hhang => ?_, fun c hc d hd hchang hdhang heq => ?_, fun i hi => ?_, h.once⟩
  · rw [exited_all_list] at hc
    rw [hexits]
    by_cases hcc : c = s.cur
    · have hstatus : (s.exited status parent).exitStatus s.cur = status :=
        (update_self _ _ _).trans (toInt8_eq hsafe.1 hsafe.2)
      rw [hcc, hself, hstatus]
      refine ⟨by simp, fun hin => ?_⟩
      exact absurd (h.bound _ hin) (by omega)
    · obtain ⟨hlt, hexit, hnew⟩ := hold c hc hcc hhang
      have hstatus : (s.exited status parent).exitStatus c = s.exitStatus c :=
        update_of_ne hcc _ _
      rw [hof c hcc, hstatus, List.getElem?_append_left hlt]
      exact ⟨hexit, hnew⟩
  · rw [exited_all_list] at hc hd
    by_cases hcc : c = s.cur <;> by_cases hdc : d = s.cur
    · rw [hcc, hdc]
    · rw [hcc, hof d hdc] at heq
      have hlt := (hold d hd hdc hdhang).1
      omega
    · rw [hdc, hof c hcc] at heq
      have hlt := (hold c hc hcc hchang).1
      omega
    · rw [hof c hcc, hof d hdc] at heq
      exact h.apart c hc d hd (hanging_of_exited hsched hidle hpin hc hcc hchang)
        (hanging_of_exited hsched hidle hpin hd hdc hdhang) heq
  · have hlt := h.bound i hi
    rw [hexits, List.length_append]
    omega

/-- A hanging child leaves the family. -/
theorem Family.reaped (h : Family s) (hhang : s.sched.status child = .hanging) :
    Family (s.reaped child) := by
  have hmem : ∀ t ∈ s.sched.allList, s.sched.status t ≠ .hanging →
      t ∈ (s.reaped child).sched.allList ∧ (s.reaped child).sched.status t ≠ .hanging := by
    intro t ht hstatus
    have hne : t ≠ child := by
      rintro rfl
      exact hstatus hhang
    have hin : t ∈ (s.reaped child).sched.allList := h.sched.allNodup.mem_erase_iff.2 ⟨hne, ht⟩
    exact ⟨hin, (reaped_old h.sched hin).2.2 ▸ hstatus⟩
  obtain ⟨hin, hone, hminus, halive⟩ := h.init
  refine ⟨h.sched.remove_inv hhang, fun t ht u hu => ?_, fun t ht => ?_,
    ⟨(hmem _ hin halive).1, hone, hminus, (hmem _ hin halive).2⟩, fun c hc => ?_⟩
  · exact h.pids t (reaped_old h.sched ht).1 u (reaped_old h.sched hu).1
  · exact h.notMinus t (reaped_old h.sched ht).1
  · refine (h.parents c (reaped_old h.sched hc).1).imp_right ?_
    intro ⟨q, hq, hsome, hpid, hstatus⟩
    exact ⟨q, (hmem q hq hstatus).1, hsome, hpid, (hmem q hq hstatus).2⟩

/-- The exit of a child is delivered once. -/
theorem Exits.reaped (h : Exits s) (hsched : SchedInv s.sched) (hin : child ∈ s.sched.allList)
    (hhang : s.sched.status child = .hanging) : Exits (s.reaped child) := by
  obtain ⟨hexit, hnew⟩ := h.hanging child hin hhang
  refine ⟨fun c hc hchang => ?_, fun c hc d hd hchang hdhang => ?_, fun i hi => ?_, ?_⟩
  · obtain ⟨hc', hne, hsame⟩ := reaped_old hsched hc
    rw [hsame] at hchang
    obtain ⟨hexit', hnew'⟩ := h.hanging c hc' hchang
    refine ⟨hexit', fun hi => ?_⟩
    rcases List.mem_append.1 hi with hi | hi
    · exact hnew' hi
    · exact hne (h.apart c hc' child hin hchang hhang (List.mem_singleton.1 hi))
  · obtain ⟨hc', -, hcsame⟩ := reaped_old hsched hc
    obtain ⟨hd', -, hdsame⟩ := reaped_old hsched hd
    exact h.apart c hc' d hd' (hcsame ▸ hchang) (hdsame ▸ hdhang)
  · rcases List.mem_append.1 hi with hi | hi
    · exact h.bound i hi
    · rw [List.mem_singleton.1 hi]
      exact (List.getElem?_eq_some_iff.1 hexit).1
  · refine List.nodup_append.2 ⟨h.once, List.nodup_singleton _, fun i hi j hj heq => ?_⟩
    rw [List.mem_singleton.1 hj] at heq
    exact hnew (heq ▸ hi)

/-- Every action that gives new threads a new pid keeps the parents. -/
theorem Result.family {a : Act} (hresult : Result s a last) (h : Family s)
    (hsafe : FreshPids s a) : Family last := by
  have hsched := hresult.sched_inv h.sched
  cases hresult with
  | sched henabled hplain =>
    exact h.keep hsched (plain_all_list hplain) rfl rfl rfl rfl fun t ht hhang =>
      asleep_of_plain h.sched henabled hplain ht (.inr hhang) ▸ hhang
  | start hnew => exact h.made hnew _ hsafe (.inl ⟨rfl, rfl⟩)
  | fork hnew =>
    have hrun : s.sched.status s.cur ≠ .hanging := by simp [h.sched.cur_running]
    exact h.made hnew _ hsafe (.inr ⟨_, h.sched.curIn, rfl, rfl, hrun⟩)
  | forkFails | noChild => exact h.keep hsched rfl rfl rfl rfl rfl fun _ _ => id
  | exit hidle hppid hparent => exact h.exited (.exit hidle hppid hparent) hidle hppid hparent
  | reap _ hchild => exact h.reaped (hanging_of_find hchild).2.2
  | wait hidle =>
    exact h.keep hsched rfl rfl rfl rfl rfl fun t ht => hanging_of_waits h.sched hidle ht

/-- Every safe action keeps the exits. -/
theorem Result.exits {a : Act} (hresult : Result s a last) (h : Exits s) (hsched : SchedInv s.sched)
    (hsafe : SafeCalls s a) : Exits last := by
  cases hresult with
  | sched henabled hplain =>
    refine h.keep rfl rfl rfl rfl fun t ht hhang => ?_
    rw [plain_all_list hplain] at ht
    exact ⟨ht, asleep_of_plain hsched henabled hplain ht (.inr hhang) ▸ hhang⟩
  | start | fork => exact h.keep rfl rfl rfl rfl fun _ => hanging_of_made
  | forkFails | noChild => exact h.keep rfl rfl rfl rfl fun _ => .intro
  | exit hidle _ hparent => exact h.exited hsched hidle hparent hsafe.2
  | reap _ hchild =>
    obtain ⟨hin, -, hhang⟩ := hanging_of_find hchild
    exact h.reaped hsched hin hhang
  | wait hidle =>
    exact h.keep rfl rfl rfl rfl fun t ht hhang => ⟨ht, hanging_of_waits hsched hidle ht hhang⟩

/-- In every state that is reached by safe calls, `sys_wait` delivers each exit once and with its
status. -/
theorem wait_ok_of_run (hstart : Start s) (hrun : system.Run SafeCalls s last) : WaitOk last := by
  have hstep : ∀ s a, Family s ∧ Exits s → system.Enabled s a → SafeCalls s a →
      wp any (system.exec a) s fun _ last => Family last ∧ Exits last := by
    intro s a h henabled hsafe
    refine wp_any_iff.2 fun _ last hdone => ?_
    have hresult := result_of_done h.1.sched henabled hdone
    exact ⟨hresult.family h.1 hsafe.1, hresult.exits h.2 h.1.sched hsafe⟩
  obtain ⟨hfamily, hexits⟩ := System.Run.invariant hstep hrun ⟨hstart.family, hstart.exits_inv⟩
  exact hfamily.wait_ok hexits

instance (s : WaitSys) (a : Act) : Decidable (FreshPids s a) := by
  cases a <;> unfold FreshPids <;> infer_instance

instance (s : WaitSys) (a : Act) : Decidable (SafeCalls s a) := by
  cases a <;> dsimp only [SafeCalls] <;> infer_instance

/-- The result of the pass of `sys_wait` that runs next. -/
def nextWait (s : WaitSys) : Option Returned :=
  match waitPass s with
  | .done r _ => r
  | .stop _ => none

/-- `init` waits for its child, which exits with status 7. -/
theorem wait_ok_small : ∃ last, system.Run SafeCalls three last ∧
    last.nextWait = some (.child 4 7) ∧ last.exits = [7] ∧ WaitOk last := by
  obtain ⟨last, hrun, hnext, hexits⟩ := system.exists_run_of_follow SafeCalls
    (initWaits ++ [.exit 7]) three
    (fun s => s.nextWait = some (.child 4 7) ∧ s.exits = [7]) (by decide)
  exact ⟨last, hrun, hnext, hexits, wait_ok_of_run three_start hrun⟩

/-- The child exits with status 300, and `init` gets 44. -/
theorem status_truncated : ∃ last, system.Run (fun _ _ => True) three last ∧ ¬WaitOk last := by
  obtain ⟨last, hrun, henabled, hnext, hexits⟩ := system.exists_run_of_follow
    (fun _ _ => True) (initWaits ++ [.exit 300]) three (fun s => system.Enabled s .wait ∧
      s.nextWait = some (.child 4 44) ∧ s.exits = [300]) (by decide)
  refine ⟨last, hrun, fun hok => ?_⟩
  cases hpass : waitPass last with
  | stop e => simp [nextWait, hpass] at hnext
  | done r after =>
    have hr : r = some (.child 4 44) := by simpa [nextWait, hpass] using hnext
    subst hr
    obtain ⟨-, c, -, -, -, hstatus, -⟩ := hok.returns _ _ henabled hpass
    rw [hexits, List.getElem?_singleton] at hstatus
    split at hstatus <;> simp at hstatus

/-- No process is an orphan: `init` has not exited, and the pid that a thread has as `parent_pid` is
that of one thread, which has not exited either. -/
structure NoOrphan (s : WaitSys) : Prop where
  init : s.initThread ∈ s.sched.allList ∧ s.sched.status s.initThread ≠ .hanging
  parent : ∀ c ∈ s.sched.allList, s.parentPid c ≠ -1 → ∃ q ∈ s.sched.allList,
    s.sched.status q ≠ .hanging ∧ ∀ t ∈ s.sched.allList, s.pid t = s.parentPid c ↔ t = q

/-- In every state that is reached by calls that give new threads a new pid, no process is an
orphan. -/
theorem no_orphan_of_run (hstart : Start s) (hrun : system.Run FreshPids s last) :
    NoOrphan last := by
  have h : Family last := System.Run.invariant (fun s a h henabled hsafe => wp_any_iff.2
    fun _ last hdone => (result_of_done h.sched henabled hdone).family h hsafe) hrun hstart.family
  refine ⟨⟨h.init.1, h.init.2.2.2⟩, fun c hc hparent => ?_⟩
  obtain ⟨-, hnone⟩ | ⟨q, hq, -, hpid, halive⟩ := h.parents c hc
  · exact absurd hnone hparent
  · refine ⟨q, hq, halive, fun t ht => ⟨fun heq => h.pids t ht q hq (heq.trans hpid), ?_⟩⟩
    rintro rfl
    exact hpid.symm

/-- The child of `init` makes a child and exits, and `init` adopts the grandchild. -/
theorem no_orphan_adopted : ∃ last, system.Run FreshPids three last ∧
    last.parentPid 0xc0103000 = 1 ∧ NoOrphan last := by
  obtain ⟨last, hrun, hadopted⟩ := system.exists_run_of_follow FreshPids
    (initWaits ++ [.fork 0xc0103000, .exit 300]) three (fun s => s.parentPid 0xc0103000 = 1)
    (by decide)
  exact ⟨last, hrun, hadopted, no_orphan_of_run three_start hrun⟩

end WaitSys

end LosKernel.WaitExit
