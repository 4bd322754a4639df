import LosKernel.Kernel.State
import LosKernel.Lib.System

/-!
# The scheduler

After `thread/thread.c` and the timer handler of `device/time.c`. Page tables, stacks and
`stack_magic` are not part of this model.

A thread that is chosen again continues in `schedule`, where it sets the interrupt status: to the
one that `thread_block` or `thread_yield` saved, to that of the interrupted code, or to enabled in
`kernel_thread`. `oldStatus` is that status, so that a step leads from one point outside the
scheduler to the next.
-/

namespace LosKernel.Thread

open Prog

/-- The part of `TaskStruct` that the scheduler uses, and the interrupt status that the thread sets
when it runs again. -/
structure Tcb where
  status : TaskStatus
  priority : UInt8
  ticks : UInt8
  elapsedTicks : UInt32
  oldStatus : Bool

/-- The state of the scheduler. Control blocks are named by their addresses; `intr` is the interrupt
status of the processor. -/
structure Sched where
  tcb : Nat → Tcb
  readyList : List Nat
  allList : List Nat
  mainThread : Nat
  idleThread : Nat
  cur : Nat
  intr : Bool

/-- A program of the scheduler. -/
abbrev Call (α : Type) := Prog Stop Sched α

/-- The status of a thread. -/
def Sched.status (s : Sched) (t : Nat) : TaskStatus := (s.tcb t).status

/-- Change the control block of a thread. -/
def Sched.modify (s : Sched) (t : Nat) (change : Tcb → Tcb) : Sched :=
  { s with tcb := Function.update s.tcb t (change (s.tcb t)) }

/-- `intr_disable`: the status before. -/
def intrDisable : Call Bool := do
  let s ← state
  update fun s => { s with intr := false }
  pure s.intr

/-- `intr_set_status`. -/
def intrSetStatus (status : Bool) : Call Unit := update fun s => { s with intr := status }

/-- The statuses that `thread_block` and `thread_unblock` accept. -/
def Blocking (stat : TaskStatus) : Prop := stat = .blocked ∨ stat = .waiting ∨ stat = .hanging

instance (stat : TaskStatus) : Decidable (Blocking stat) :=
  inferInstanceAs (Decidable (_ ∨ _ ∨ _))

theorem blocking_blocked : Blocking .blocked := .inl rfl

theorem blocking_waiting : Blocking .waiting := .inr (.inl rfl)

theorem blocking_hanging : Blocking .hanging := .inr (.inr rfl)

/-- `thread_unblock`. -/
def threadUnblock (pthread : Nat) : Call Unit := do
  let oldStatus ← intrDisable
  let s ← state
  let stat := s.status pthread
  assert (Blocking stat)
  when (stat ≠ .ready) do
    assert (pthread ∉ s.readyList)
    update fun s =>
      { s with readyList := pthread :: s.readyList }.modify pthread
      fun t => { t with status := .ready }
  intrSetStatus oldStatus

/-- `switch_to`, up to the point where the next thread leaves the scheduler. -/
def switchTo (next : Nat) : Call Unit :=
  update fun s => { s with cur := next, intr := (s.tcb next).oldStatus }

/-- The first half of `schedule`: a thread that still runs goes to the end of the ready list. -/
def requeue : Call Unit := do
  let s ← state
  assert (!s.intr)
  when (s.status s.cur = .running) do
    assert (s.cur ∉ s.readyList)
    update fun s =>
      { s with readyList := s.readyList ++ [s.cur] }.modify s.cur
        fun t => { t with ticks := t.priority, status := .ready }

/-- The second half of `schedule`. `list_pop` of an empty list would unlink its tail. -/
def pickNext : Call Unit := do
  let s ← state
  when (s.readyList = []) (threadUnblock s.idleThread)
  let s ← state
  match s.readyList with
  | [] => halt .badAccess
  | next :: rest =>
    update fun s =>
      { s with readyList := rest }.modify next fun t => { t with status := .running }
    switchTo next

/-- `schedule`. -/
def schedule : Call Unit := do
  requeue
  pickNext

/-- `thread_block`, up to the call of `schedule`. -/
def enterBlock (stat : TaskStatus) : Call Unit := do
  assert (Blocking stat)
  let oldStatus ← intrDisable
  update fun s => s.modify s.cur fun t => { t with status := stat, oldStatus := oldStatus }

/-- `thread_block`. -/
def threadBlock (stat : TaskStatus) : Call Unit := do
  enterBlock stat
  schedule

/-- `thread_yield`, up to the call of `schedule`. -/
def enterYield : Call Unit := do
  let oldStatus ← intrDisable
  let s ← state
  assert (s.cur ∉ s.readyList)
  update fun s =>
    { s with readyList := s.readyList ++ [s.cur] }.modify s.cur
      fun t => { t with status := .ready, oldStatus := oldStatus }

/-- `thread_yield`. -/
def threadYield : Call Unit := do
  enterYield
  schedule

/-- The timer interrupt and `intr_timer_handler`, up to the call of `schedule`; `true` when the
ticks of the thread are used up. -/
def enterTimer : Call Bool := do
  update fun s =>
    { s with intr := false }.modify s.cur
      fun t => { t with elapsedTicks := t.elapsedTicks + 1, oldStatus := true }
  let s ← state
  pure ((s.tcb s.cur).ticks == 0)

/-- The timer interrupt: its handler, and the return to the interrupted code. -/
def intrTimerHandler : Call Unit := do
  if ← enterTimer then
    schedule
  else
    update fun s => { s with intr := true }.modify s.cur fun t => { t with ticks := t.ticks - 1 }

/-- `init_thread`. -/
def initThread (pthread : Nat) (prio : UInt8) : Call Unit :=
  update fun s =>
    s.modify pthread fun _ =>
      { status := if pthread = s.mainThread then .running else .ready
        priority := prio
        ticks := prio
        elapsedTicks := 0
        oldStatus := true }

/-- `thread_start`, with the page for the control block that `get_kernel_pages` returned. The second
half of `process_execute` is the same. -/
def threadStart (thread : Nat) (prio : UInt8) : Call Unit := do
  initThread thread prio
  let s ← state
  assert (thread ∉ s.readyList)
  assert (thread ∉ s.allList)
  update fun s =>
    { s with readyList := s.readyList ++ [thread], allList := s.allList ++ [thread] }

/-- `thread_exit` of another thread. Interrupts stay off. -/
def threadExit (threadOver : Nat) : Call Unit := do
  let _ ← intrDisable
  update fun s => s.modify threadOver fun t => { t with status := .died }
  update fun s =>
    { s with
      readyList := s.readyList.erase threadOver
      allList := s.allList.erase threadOver }

/-- `make_main_thread`. -/
def makeMainThread : Call Unit := do
  update fun s => { s with mainThread := s.cur }
  let s ← state
  initThread s.mainThread 31
  assert (s.mainThread ∉ s.allList)
  update fun s => { s with allList := s.allList ++ [s.mainThread] }

/-- `thread_init`, with the pages for the control blocks of `init` and of the idle thread. -/
def threadInit (init idle : Nat) : Call Unit := do
  threadStart init 31
  makeMainThread
  threadStart idle 10
  update fun s => { s with idleThread := idle }

/-- The state before `thread_init`, which runs in the thread `main`. -/
def Sched.start (main : Nat) : Sched where
  tcb := fun _ => ⟨.running, 0, 0, 0, false⟩
  readyList := []
  allList := []
  mainThread := 0
  idleThread := 0
  cur := main
  intr := false

/-! ## The system -/

/-- What can happen to the threads. -/
inductive Action where
  | timer
  | block (stat : TaskStatus)
  | unblock (pthread : Nat)
  | yield
  | start (thread : Nat) (prio : UInt8)
  | exit (threadOver : Nat)
  | setIntr (status : Bool)
  deriving DecidableEq, Repr

/-- When an action can be taken. A new control block lies in a page that is not in use. -/
def Action.Enabled (s : Sched) : Action → Prop
  | .timer => s.intr = true
  | .block stat => Blocking stat
  | .unblock pthread => pthread ∈ s.allList ∧ pthread ≠ s.idleThread ∧
      (s.status pthread = .blocked ∨ s.status pthread = .waiting)
  | .yield => True
  | .start thread _ => thread ∉ s.allList ∧ thread ≠ s.mainThread
  | .exit threadOver => threadOver ∈ s.allList ∧ s.status threadOver = .hanging
  | .setIntr _ => True

instance (s : Sched) (a : Action) : Decidable (a.Enabled s) := by
  cases a <;> unfold Action.Enabled <;> infer_instance

/-- What an action does. -/
def Action.exec : Action → Call Unit
  | .timer => intrTimerHandler
  | .block stat => threadBlock stat
  | .unblock pthread => threadUnblock pthread
  | .yield => threadYield
  | .start thread prio => threadStart thread prio
  | .exit threadOver => threadExit threadOver
  | .setIntr status => intrSetStatus status

/-- The scheduler as a system. -/
def system : System Stop Sched Action := ⟨Action.Enabled, Action.exec⟩

end LosKernel.Thread
