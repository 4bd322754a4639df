import LosKernel.Device.Ide
import LosKernel.Thread.Lock

/-!
# The completion protocol of a disk channel

After `ide_read`, `ide_write` and `intr_hd_handler` of `device/ide.c`, on one channel. The timer
and the disk can interrupt between any two statements; within the functions of the lock the points
of `LockSys` say where a thread is. What `busy_wait` finds in the registers is a parameter of the
step.

Commands are numbered in the order of the calls of `cmd_out`. `consumed` lists those whose
`sema_down` has returned, and `completed` counts the calls of `sema_up` in the handler.
`completion_ok_of_run` is the main result.
-/

namespace LosKernel.Device

open Prog hiding update
open Function (update update_of_ne update_self)

open Thread

/-- A call of `ide_read` or `ide_write`. -/
structure Transfer where
  write : Bool
  lba : UInt32
  secCnt : UInt32
  deriving DecidableEq, Repr

/-- The variables of the loop while a command is under way. -/
structure Group where
  secsDone : UInt32
  secsOp : UInt32
  deriving DecidableEq, Repr

/-- The choice of `secs_op`. -/
def secsOp (secCnt secsDone : UInt32) : UInt32 :=
  if secsDone + 256 ≤ secCnt then 256 else secCnt - secsDone

/-- What a call does next. -/
inductive IdeStage where
  /-- `select_disk`, once the lock is held. -/
  | begin
  /-- The test of the loop, and `select_sector`. -/
  | test (secsDone : UInt32)
  /-- The first statement of `cmd_out`. -/
  | expect (group : Group)
  /-- The second statement of `cmd_out`. -/
  | command (group : Group)
  /-- `busy_wait`, and the transfer of the data. -/
  | poll (group : Group)
  /-- `sema_down`. -/
  | down (group : Group)
  /-- The loop of `sema_down`, with the interrupt status that it has saved. -/
  | wait (oldStatus : Bool) (group : Group)
  /-- The return, once the lock is released. -/
  | leave
  deriving DecidableEq, Repr

/-- Where a thread is. -/
inductive IdePoint where
  | outside
  | inCall (call : Transfer) (stage : IdeStage)
  deriving DecidableEq, Repr

/-- What `busy_wait` finds: the disk is busy and there is time left, or it can move
data, or neither. -/
inductive Polled where
  | busy
  | ready
  | failed
  deriving DecidableEq, Repr

/-- The threads with the lock of the channel, the channel, where each thread is, and the record of
commands and completions; `command` is the last command of each thread. -/
structure IdeSys where
  lock : LockSys
  expectingIntr : Bool
  diskDone : Semaphore
  point : Nat → IdePoint
  issued : Nat
  command : Nat → Nat
  consumed : List Nat
  completed : Nat

/-- The current thread. -/
abbrev IdeSys.cur (s : IdeSys) : Nat := s.lock.sched.cur

namespace IdeSys

/-- The semaphore `disk_done`. -/
def sema (s : IdeSys) : SemaState := ⟨s.lock.sched, s.diskDone⟩

/-- Run a program of the lock. -/
def onLock {α : Type} (m : Prog Stop LockSys α) : Prog Stop IdeSys α :=
  zoom IdeSys.lock (fun lock s => { s with lock := lock }) m

/-- Run a program of `disk_done`. -/
def onSema {α : Type} (m : Prog Stop SemaState α) : Prog Stop IdeSys α :=
  zoom sema (fun base s => { s with lock.sched := base.sched, diskDone := base.sema }) m

/-- Run a program of the scheduler. -/
def onSched {α : Type} (m : Thread.Call α) : Prog Stop IdeSys α := onSema (SemaState.onSched m)

/-- Thread `me` goes to `point`. -/
def goto (me : Nat) (point : IdePoint) : Prog Stop IdeSys Unit :=
  Prog.update fun s => { s with point := update s.point me point }

/-- Where a call goes on when `sema_down` has returned. -/
def afterDown (call : Transfer) (group : Group) : IdeStage :=
  if call.write then .test (group.secsDone + group.secsOp) else .poll group

/-- The loop of `sema_down` up to where it blocks, or the loop and the rest of `sema_down`. -/
def semaDownLoop (me : Nat) (call : Transfer) (oldStatus : Bool) (group : Group) :
    Prog Stop IdeSys Unit := do
  goto me (.inCall call (.wait oldStatus group))
  let taken ← onSema semaTry
  when (taken = true) do
    onSched (intrSetStatus oldStatus)
    Prog.update fun s => { s with consumed := s.consumed ++ [s.command me] }
    goto me (.inCall call (afterDown call group))

/-- The next statement of the call in which the current thread is. -/
def statement (polled : Polled) : Prog Stop IdeSys Unit := do
  let s ← state
  let me := s.cur
  match s.point me with
  | .outside => pure ()
  | .inCall call .begin => goto me (.inCall call (.test 0))
  | .inCall call (.test secsDone) =>
    if secsDone < call.secCnt then do
      assert ((call.lba + secsDone).toNat ≤ maxLba)
      goto me (.inCall call (.expect ⟨secsDone, secsOp call.secCnt secsDone⟩))
    else do
      goto me (.inCall call .leave)
      onLock (LockSys.exec .release)
  | .inCall call (.expect group) => do
    Prog.update fun s =>
      { s with
        expectingIntr := true
        command := update s.command me s.issued
        issued := s.issued + 1 }
    goto me (.inCall call (.command group))
  | .inCall call (.command group) =>
    goto me (.inCall call (if call.write then .poll group else .down group))
  | .inCall call (.poll group) =>
    match polled with
    -- mtime_sleep yields the processor
    | .busy => onSched threadYield
    | .ready =>
      goto me (.inCall call
        (if call.write then .down group else .test (group.secsDone + group.secsOp)))
    | .failed => halt .assertFailed
  | .inCall call (.down group) => do
    let oldStatus ← onSched intrDisable
    semaDownLoop me call oldStatus group
  | .inCall call (.wait oldStatus group) => semaDownLoop me call oldStatus group
  | .inCall _ .leave => goto me .outside

/-- The start of `ide_read` or `ide_write`, up to `lock_acquire`. -/
def call (call : Transfer) : Prog Stop IdeSys Unit := do
  assert (call.lba.toNat ≤ maxLba)
  assert (0 < call.secCnt)
  let s ← state
  goto s.cur (.inCall call .begin)
  onLock (LockSys.exec .acquire)

/-- An interrupt of the disk, `intr_hd_handler`, and the return to the interrupted code. -/
def intrHdHandler : Prog Stop IdeSys Unit := do
  onSched (intrSetStatus false)
  let s ← state
  when (s.expectingIntr = true) do
    Prog.update fun s => { s with expectingIntr := false }
    onSema semaUp
    Prog.update fun s => { s with completed := s.completed + 1 }
  onSched (intrSetStatus true)

/-- What happens: an action of the scheduler, an interrupt of the disk, a call, the next statement
within `lock_acquire` or `lock_release`, the next statement of a call. -/
inductive Act where
  | sched (a : Action)
  | interrupt
  | call (call : Transfer)
  | lock
  | statement (polled : Polled)
  deriving DecidableEq, Repr

/-- When an action can be taken. The disk interrupts any code. The idle thread uses no disk. -/
def Enabled (s : IdeSys) : Act → Prop
  | .sched a => a.EnabledAmong s.lock.sched (s.point · = .outside)
  | .interrupt => s.lock.sched.intr = true
  | .call _ => s.point s.cur = .outside ∧ s.cur ≠ s.lock.sched.idleThread
  | .lock => s.lock.point s.cur ≠ .outside
  | .statement _ =>
    s.point s.cur ≠ .outside ∧ s.lock.point s.cur = .outside

/-- What an action does. -/
def exec : Act → Prog Stop IdeSys Unit
  | .sched a => onSched a.exec
  | .interrupt => intrHdHandler
  | .call transfer => call transfer
  | .lock => onLock LockSys.statement
  | .statement polled => statement polled

/-- The threads and the channel as a system. -/
def system : System Stop IdeSys Act := ⟨Enabled, exec⟩

/-- The threads have been started, and `ide_init` has initialised the channel. -/
structure Start (s : IdeSys) : Prop where
  lock : s.lock.Start
  expectingIntr : s.expectingIntr = false
  value : s.diskDone.value = 0
  waiters : s.diskDone.waiters = []
  outside : ∀ t, s.point t = .outside
  issued : s.issued = 0
  consumed : s.consumed = []
  completed : s.completed = 0

end IdeSys

/-! ## The invariant -/

namespace IdePoint

/-- The thread has called `cmd_out`, and the `sema_down` for that command has not returned. -/
def Outstanding : IdePoint → Prop
  | .inCall _ (.command _) | .inCall _ (.down _) | .inCall _ (.wait _ _) => True
  | .inCall call (.poll _) => call.write = true
  | _ => False

/-- The thread is in the loop of `sema_down`. -/
def Waits (point : IdePoint) : Prop := ∃ call oldStatus group,
    point = .inCall call (.wait oldStatus group)

/-- How a thread uses the lock of the channel. -/
def lockUse : IdePoint → LockUse
  | .outside => .out
  | .inCall _ .begin => .entering
  | .inCall _ .leave => .leaving
  | .inCall _ _ => .held

variable {point : IdePoint}

theorem Waits.outstanding (h : point.Waits) : point.Outstanding := by
  obtain ⟨call, oldStatus, group, rfl⟩ := h
  trivial

/-- A thread with a command under way holds the lock. -/
theorem Outstanding.held (h : point.Outstanding) : point.lockUse = .held := by
  cases point with
  | outside => exact absurd h id
  | inCall call stage =>
    cases stage with
    | command | poll | down | wait => rfl
    | begin | test | expect | leave => exact absurd h id

end IdePoint

open IdePoint (Waits Outstanding)

namespace IdeSys

variable {s last : IdeSys} {t : Nat} {point here : IdePoint} {stage : IdeStage} {call : Transfer}
  {α : Type}

/-- What is known of the flag, the semaphore and the record: nothing is under way, or the disk is to
answer the command of the thread `t`, or it has answered. -/
structure Protocol (s : IdeSys) : Prop where
  quiet : (∀ t, ¬(s.point t).Outstanding) → s.expectingIntr = false ∧ s.diskDone.value = 0 ∧
    s.consumed = List.range s.issued ∧ s.completed = s.issued
  busy : ∀ t, (s.point t).Outstanding → s.issued = s.command t + 1 ∧
    s.consumed = List.range (s.command t) ∧
    (s.expectingIntr = true ∧ s.diskDone.value = 0 ∧ s.completed = s.command t ∨
      s.expectingIntr = false ∧ s.diskDone.value = 1 ∧ s.completed = s.issued)

/-- The invariant of the channel. -/
structure Inv (s : IdeSys) : Prop where
  lock : s.lock.Inv
  sema : SemaInv s.sema fun t => (s.point t).Waits
  calls : s.lock.Calls IdePoint.lockUse s.point
  member : ∀ t, s.point t ≠ .outside → t ∈ s.lock.sched.allList ∧ t ≠ s.lock.sched.idleThread
  protocol : Protocol s

@[simp] theorem sema_sched (s : IdeSys) : s.sema.sched = s.lock.sched := rfl

@[simp] theorem sema_sema (s : IdeSys) : s.sema.sema = s.diskDone := rfl

theorem Start.inv (h : Start s) : Inv s where
  lock := h.lock.inv
  sema := by
    have hnone : ∀ t, ¬(s.point t).Waits := fun t ht => by simp [h.outside t, Waits] at ht
    refine ⟨h.lock.inv.sema.sched, .inl h.value, by simp [h.waiters],
      fun t ht => absurd ht (hnone t),
      fun t ht => ?_, fun t ht => absurd ht (hnone t), fun _ hsome => absurd h.waiters hsome⟩
    simp [h.waiters] at ht
  calls := h.lock.calls fun t => by rw [h.outside t]; rfl
  member := fun t ht => absurd (h.outside t) ht
  protocol :=
    ⟨fun _ => ⟨h.expectingIntr, h.value, by simp [h.consumed, h.issued], by
      rw [h.completed, h.issued]⟩, fun t ht => by simp [h.outside t, Outstanding] at ht⟩

theorem Inv.outstanding_held (h : Inv s) (ht : (s.point t).Outstanding) :
    s.lock.point t = .outside ∧ s.lock.depth t = 1 :=
  h.calls.held rfl ht.held

/-- At most one command is under way, since the thread that waits for it holds the lock. -/
theorem Inv.one_outstanding (h : Inv s) {u : Nat} (ht : (s.point t).Outstanding)
    (hu : (s.point u).Outstanding) : t = u := by
  obtain ⟨-, hdepth⟩ := h.outstanding_held ht
  obtain ⟨-, hdepth'⟩ := h.outstanding_held hu
  exact h.lock.exclusive (by omega) (by omega)

/-- While a thread holds the lock outside of a command, no command is under way. -/
theorem Inv.none_outstanding (h : Inv s) (hdepth : s.lock.depth t = 1)
    (ht : ¬(s.point t).Outstanding) (u : Nat) : ¬(s.point u).Outstanding := by
  intro hu
  obtain ⟨-, hdepth'⟩ := h.outstanding_held hu
  obtain rfl := h.lock.exclusive (t := t) (u := u) (by omega) (by omega)
  exact ht hu

/-- The disk is expected to answer only when a command is under way and has not been answered. -/
theorem Inv.expecting (h : Inv s) (hexpect : s.expectingIntr = true) :
    s.diskDone.value = 0 ∧ ∃ t, (s.point t).Outstanding := by
  by_cases hnone : ∀ t, ¬(s.point t).Outstanding
  · simp [(h.protocol.quiet hnone).1] at hexpect
  · obtain ⟨t, ht⟩ := not_forall_not.1 hnone
    obtain ⟨-, -, ⟨-, hvalue, -⟩ | ⟨hoff, -⟩⟩ := h.protocol.busy t ht
    · exact ⟨hvalue, t, ht⟩
    · simp [hoff] at hexpect

/-- A step that changes nothing that the protocol is about. -/
theorem Protocol.congr (h : Protocol s)
    (hpoint : ∀ t, (last.point t).Outstanding ↔ (s.point t).Outstanding)
    (hexpect : last.expectingIntr = s.expectingIntr)
    (hdone : last.diskDone.value = s.diskDone.value) (hissued : last.issued = s.issued)
    (hcommand : last.command = s.command) (hconsumed : last.consumed = s.consumed)
    (hcompleted : last.completed = s.completed) : Protocol last := by
  constructor
  · intro hnone
    rw [hexpect, hdone, hconsumed, hissued, hcompleted]
    exact h.quiet fun t ht => hnone t ((hpoint t).2 ht)
  · intro t ht
    rw [hexpect, hdone, hconsumed, hissued, hcompleted, hcommand]
    exact h.busy t ((hpoint t).1 ht)

/-! ## Steps -/

theorem on_sched_eq {m : Thread.Call α} {value : α} {next : Sched}
    (h : m s.lock.sched = .done value next) :
    onSched m s = .done value { s with lock.sched := next } := by
  simp [onSched, onSema, SemaState.onSched, zoom, h]

/-- Which threads wait in `sema_down` when the current one goes elsewhere. -/
theorem update_outstanding (s : IdeSys)
    (h : point.Outstanding ↔ (s.point s.cur).Outstanding) (t : Nat) :
    (update s.point s.cur point t).Outstanding ↔ (s.point t).Outstanding := by
  by_cases htc : t = s.cur
  · rw [htc, update_self, h]
  · rw [update_of_ne htc]

/-- The scheduler acts while the current thread is outside of the lock and of `sema_down`. -/
theorem Inv.after_inv (h : Inv s) {a : Action} (hcur : ¬(s.point s.cur).Waits)
    (hlock : ¬(s.lock.point s.cur).Waits) (henabled : a.Enabled s.lock.sched)
    (hblocks : IdleBlocks s.lock.sched a) (hspares : a.Among (s.point · = .outside)) :
    Inv { s with lock.sched := s.lock.sched.after a } := by
  have hlockSpares : s.lock.SparesLock a :=
    h.calls.spares_lock (fun _ ht => by rw [ht]; rfl) hspares
  refine ⟨h.lock.after_inv hlock henabled hblocks hlockSpares, ?_, h.calls, fun t ht => ?_, ?_⟩
  · refine h.sema.after_inv henabled hblocks hcur fun t ht => hspares.spares ?_
    obtain ⟨call, old, group, hpoint⟩ := ht
    simp [hpoint]
  · obtain ⟨hin, hidle⟩ := h.member t ht
    refine ⟨h.lock.sema.sched.after_mem hin ?_, by simpa using hidle⟩
    rintro rfl
    exact ht hspares
  · exact h.protocol.congr (fun _ => Iff.rfl) rfl rfl rfl rfl rfl rfl

/-- The current thread goes on, and no thread ends. -/
theorem Inv.moved (h : Inv s) (hlock : last.lock.Inv)
    (hsema : SemaInv last.sema fun t => (last.point t).Waits)
    (hpoint : last.point = update s.point s.cur point)
    (hcalls : last.lock.Calls IdePoint.lockUse (update s.point s.cur point))
    (hcur : s.cur ≠ s.lock.sched.idleThread)
    (hall : ∀ t ∈ s.lock.sched.allList, t ∈ last.lock.sched.allList)
    (hidle : last.lock.sched.idleThread = s.lock.sched.idleThread) (hprotocol : Protocol last) :
    Inv last := by
  refine ⟨hlock, hsema, hpoint ▸ hcalls, fun t ht => ?_, hprotocol⟩
  rw [hidle]
  by_cases htc : t = s.cur
  · rw [htc]
    exact ⟨hall _ h.lock.sema.sched.curIn, hcur⟩
  · rw [hpoint, update_of_ne htc] at ht
    exact (h.member t ht).imp_left (hall t)

/-- A step to a point that does not wait, with the scheduler and `disk_done` as they are. -/
theorem Inv.go_inv (h : Inv s) (hlock : last.lock.Inv) (hsched : last.lock.sched = s.lock.sched)
    (hdone : last.diskDone = s.diskDone)
    (hpoint : last.point = update s.point s.cur point)
    (hcalls : last.lock.Calls IdePoint.lockUse (update s.point s.cur point))
    (hidle : s.cur ≠ s.lock.sched.idleThread) (hfrom : ¬(s.point s.cur).Waits)
    (hto : ¬point.Waits) (hprotocol : Protocol last) : Inv last := by
  have hsema : last.sema = s.sema := by rw [IdeSys.sema, IdeSys.sema, hsched, hdone]
  refine h.moved hlock ?_ hpoint hcalls hidle (by simp [hsched]) (by rw [hsched]) hprotocol
  rw [hsema]
  refine h.sema.congr fun t => ?_
  by_cases htc : t = s.cur
  · rw [htc, hpoint, update_self]
    exact iff_of_false hto hfrom
  · rw [hpoint, update_of_ne htc]

/-- The current thread goes to another point of its call. -/
def go (s : IdeSys) (point : IdePoint) : IdeSys :=
  { s with point := update s.point s.cur point }

/-- The current thread goes on within its call, and no command starts or ends. -/
theorem Inv.go_on (h : Inv s) (hpoint : s.point s.cur = here) (hin : here ≠ .outside)
    (hcall : point.lockUse.At (s.lock.point s.cur) (s.lock.depth s.cur))
    (hsame : ¬here.Waits ∧ ¬point.Waits ∧ (point.Outstanding ↔ here.Outstanding)) :
    Inv (s.go point) := by
  subst hpoint
  exact h.go_inv h.lock rfl rfl rfl (h.calls.go hcall) (h.member _ hin).2 hsame.1 hsame.2.1
    (h.protocol.congr (s.update_outstanding hsame.2.2) rfl rfl rfl rfl rfl rfl)

/-- The current thread starts a command. -/
def issue (s : IdeSys) (call : Transfer) (group : Group) : IdeSys :=
  { s with
    expectingIntr := true
    command := update s.command s.cur s.issued
    issued := s.issued + 1
    point := update s.point s.cur (.inCall call (.command group)) }

/-- The command is sent. -/
theorem Inv.issue_inv (h : Inv s) {group : Group}
    (hpoint : s.point s.cur = .inCall call (.expect group)) :
    Inv (s.issue call group) := by
  have hcall := h.calls.held hpoint rfl
  have hnone := h.none_outstanding hcall.2 (by simp [hpoint, Outstanding])
  obtain ⟨-, hvalue, hconsumed, hcompleted⟩ := h.protocol.quiet hnone
  refine h.go_inv h.lock rfl rfl rfl (h.calls.go hcall)
    (h.member _ (by simp [hpoint])).2 (by simp [hpoint, Waits]) (by simp [Waits])
    ⟨fun hall => ?_, fun t ht => ?_⟩
  · have hself := hall s.cur
    simp [issue, Outstanding] at hself
  · by_cases htc : t = s.cur
    · subst htc
      simp [issue, hvalue, hconsumed, hcompleted]
    · simp only [issue, update_of_ne htc] at ht
      exact absurd ht (hnone t)

/-- The state in which the current thread waits in `sema_down`. -/
def waitHere (s : IdeSys) (call : Transfer) (oldStatus : Bool) (group : Group) : IdeSys :=
  { s with
    lock.sched := s.sema.wait.sched
    diskDone := s.sema.wait.sema
    point := update s.point s.cur (.inCall call (.wait oldStatus group)) }

/-- The state in which `sema_down` of the current thread has returned. -/
def takeHere (s : IdeSys) (call : Transfer) (oldStatus : Bool) (group : Group) : IdeSys :=
  { s with
    lock.sched.intr := oldStatus
    diskDone.value := 0
    consumed := s.consumed ++ [s.command s.cur]
    point := update s.point s.cur (.inCall call (afterDown call group)) }

/-- The state after a pass through the loop of `sema_down`. -/
def tryDown (s : IdeSys) (call : Transfer) (oldStatus : Bool) (group : Group) : IdeSys :=
  if s.diskDone.value = 0 then s.waitHere call oldStatus group
  else s.takeHere call oldStatus group

theorem after_down_not_outstanding (call : Transfer) (group : Group) :
    ¬(IdePoint.inCall call (afterDown call group)).Outstanding := by
  unfold afterDown
  split
  case isTrue => exact id
  case isFalse hread => exact hread

/-- The thread waits for the disk. -/
theorem Inv.wait_inv (h : Inv s) (hcur : (s.point s.cur).Outstanding)
    (hoff : s.lock.sched.intr = false) (hvalue : s.diskDone.value = 0) (call : Transfer)
    (oldStatus : Bool) (group : Group) : Inv (s.waitHere call oldStatus group) := by
  obtain ⟨hout, hdepth⟩ := h.outstanding_held hcur
  have hidle : s.cur ≠ s.lock.sched.idleThread := by
    refine (h.member s.cur fun heq => ?_).2
    simp [heq, Outstanding] at hcur
  have hlock := h.lock.after_inv (a := .block .blocked) (by simp [hout, LockPoint.Waits])
    blocking_blocked (fun heq => absurd heq hidle) trivial
  refine h.moved hlock ?_ rfl (h.calls.go ⟨hout, hdepth⟩) hidle (fun t ht => ?_) rfl ?_
  · refine h.sema.wait_inv hvalue hidle hoff fun t => ?_
    by_cases htc : t = s.cur
    · simp [htc, waitHere, Waits]
    · simp [htc, waitHere]
  · exact h.lock.sema.sched.after_mem (a := .block .blocked) ht (by simp)
  · refine h.protocol.congr (s.update_outstanding ?_) rfl rfl rfl rfl rfl rfl
    exact iff_of_true trivial hcur

/-- The interrupt has come, and `sema_down` returns. -/
theorem Inv.take_inv (h : Inv s) (hcur : (s.point s.cur).Outstanding)
    (hvalue : s.diskDone.value ≠ 0) (call : Transfer) (oldStatus : Bool) (group : Group) :
    Inv (s.takeHere call oldStatus group) := by
  have hat := h.outstanding_held hcur
  have hlock := h.lock.after_inv (a := .setIntr oldStatus)
    (by simp [hat.1, LockPoint.Waits]) trivial
    trivial trivial
  have hother : ∀ t, t ≠ s.cur → (s.takeHere call oldStatus group).point t = s.point t :=
    fun t ht => update_of_ne ht _ _
  have hself : (s.takeHere call oldStatus group).point s.cur =
      .inCall call (afterDown call group) := update_self _ _ _
  have hidle : s.cur ≠ s.lock.sched.idleThread := by
    refine (h.member s.cur fun heq => ?_).2
    simp [heq, Outstanding] at hcur
  refine h.moved hlock ?_ rfl (h.calls.go ?_) hidle
    (fun _ ht => ht) rfl ⟨fun _ => ?_, fun t ht => ?_⟩
  · have htake : SemaInv s.sema.take fun t => (s.point t).Waits ∧ t ≠ s.cur :=
      h.sema.take_inv fun _ => Iff.rfl
    have hset := htake.after_inv (a := .setIntr oldStatus) trivial trivial
      (fun hboth => hboth.2 rfl)
      fun _ _ => trivial
    refine hset.congr fun t => ?_
    by_cases htc : t = s.cur
    · rw [htc, hself]
      refine iff_of_false (fun hwaits => ?_) fun hboth => hboth.2 rfl
      exact after_down_not_outstanding call group hwaits.outstanding
    · rw [hother t htc]
      simp [htc]
  · unfold afterDown
    split <;> exact hat
  · -- The command of the current thread was the only one, and the disk has answered it.
    obtain ⟨hissued, hconsumed, ⟨-, hzero, -⟩ | ⟨hexpect, -, hcompleted⟩⟩ := h.protocol.busy _ hcur
    · exact absurd hzero hvalue
    · refine ⟨hexpect, rfl, ?_, hcompleted⟩
      show s.consumed ++ [s.command s.cur] = List.range s.issued
      rw [hissued, List.range_succ, hconsumed]
  · by_cases htc : t = s.cur
    · rw [htc, hself] at ht
      exact absurd ht (after_down_not_outstanding call group)
    · rw [hother t htc] at ht
      exact absurd (h.one_outstanding ht hcur) htc

/-- The loop of `sema_down` is left at once or where it blocks. -/
theorem Inv.sema_down_loop_eq (h : Inv s) (hin : s.point s.cur ≠ .outside)
    (call : Transfer) (oldStatus : Bool) (group : Group) :
    semaDownLoop s.cur call oldStatus group s =
      .done () (s.tryDown call oldStatus group) := by
  have htry := h.sema.sema_try_eq (h.member _ hin).2
  by_cases hvalue : s.diskDone.value = 0
  · simp [semaDownLoop, bind_run, goto, onSema, zoom, IdeSys.sema, when, ret,
      tryDown, hvalue, waitHere, show semaTry ⟨s.lock.sched, s.diskDone⟩ = _ from htry]
  · simp [semaDownLoop, bind_run, goto, onSema, onSched, SemaState.onSched, zoom,
      IdeSys.sema, when, tryDown, hvalue, takeHere, SemaState.take, intrSetStatus,
      show semaTry ⟨s.lock.sched, s.diskDone⟩ = _ from htry]

/-- A pass through the loop of `sema_down`. -/
theorem Inv.try_down_inv (h : Inv s) (hcur : (s.point s.cur).Outstanding)
    (hoff : s.lock.sched.intr = false) (call : Transfer) (oldStatus : Bool) (group : Group) :
    Inv (s.tryDown call oldStatus group) := by
  unfold tryDown
  split
  case isTrue hvalue => exact h.wait_inv hcur hoff hvalue call oldStatus group
  case isFalse hvalue => exact h.take_inv hcur hvalue call oldStatus group

/-- The state after an interrupt of the disk. -/
def answered (s : IdeSys) : IdeSys :=
  if s.expectingIntr then
    { s with
      lock.sched := s.sema.up.sched
      expectingIntr := false
      diskDone := s.sema.up.sema
      completed := s.completed + 1 }
  else s

theorem on_sema_eq {m : Prog Stop SemaState α} {value : α} {base : SemaState}
    (h : m s.sema = .done value base) :
    onSema m s = .done value { s with lock.sched := base.sched, diskDone := base.sema } := by
  simp [onSema, zoom, h]

section

variable (h : Inv s)

include h

/-- An interrupt of the disk while interrupts are on. -/
theorem Inv.intr_hd_handler_eq (hintr : s.lock.sched.intr = true)
    (hcur : ¬(s.point s.cur).Waits) : intrHdHandler s = .done () s.answered := by
  have hset : onSched (intrSetStatus false) s = .done () { s with lock.sched.intr := false } :=
    on_sched_eq rfl
  simp only [intrHdHandler, bind_run, hset, state_run, when]
  by_cases hexpect : s.expectingIntr = true
  · have hoff := h.sema.after_inv (a := .setIntr false) trivial trivial hcur fun _ _ => trivial
    have hup := on_sema_eq (s := { s with lock.sched.intr := false, expectingIntr := false })
      (hoff.sema_up_eq (h.expecting hexpect).1)
    have hback : { ({ s.sema with sched.intr := false } : SemaState).up.sched with intr := true } =
        s.sema.up.sched := by
      rw [← hintr, SemaState.up, SemaState.up]
      cases s.sema.sema.waiters <;> rfl
    simp only [hexpect, if_true, bind_run, update_run, hup, answered, ← hback]
    rfl
  · have hsame : ({ s with lock.sched.intr := true } : IdeSys) = s := by rw [← hintr]
    rw [if_neg hexpect, answered, if_neg hexpect]
    exact congrArg (Outcome.done ()) hsame

/-- `sema_up` wakes the first thread that waits, if there is one. -/
theorem Inv.up_sched_cases : s.sema.up.sched = s.lock.sched ∨
    ∃ first, s.sema.up.sched = s.lock.sched.after (.unblock first) ∧
      (Action.unblock first).Enabled s.lock.sched ∧ s.lock.point first = .outside := by
  cases hlist : s.diskDone.waiters with
  | nil => exact .inl (by simp [SemaState.up, hlist])
  | cons first rest =>
    obtain ⟨hwaits, hblocked⟩ := h.sema.waiting first (by simp [hlist])
    obtain ⟨hin, hidle, -⟩ := h.sema.member first hwaits
    refine .inr ⟨first, ?_, ⟨hin, hidle, .inl hblocked⟩, (h.outstanding_held hwaits.outstanding).1⟩
    simp [SemaState.up, hlist, Sched.after]

/-- The handler of the disk interrupt. -/
theorem Inv.answered_inv (hlock : ¬(s.lock.point s.cur).Waits) : Inv s.answered := by
  unfold answered
  split
  case isFalse => exact h
  case isTrue hexpect =>
    obtain ⟨hvalue, t, ht⟩ := h.expecting hexpect
    refine ⟨?_, h.sema.up_inv, h.calls, fun t ht => ?_, fun hnone => absurd ht (hnone t),
      fun u hu => ?_⟩
    · rcases h.up_sched_cases with hsame | ⟨first, hwake, henabled, hout⟩
      · rw [hsame]
        exact h.lock
      · rw [hwake]
        exact h.lock.after_inv hlock henabled trivial hout
    · rcases h.up_sched_cases with hsame | ⟨first, hwake, -⟩
      · rw [hsame]
        exact h.member t ht
      · rw [hwake]
        exact h.member t ht
    · obtain ⟨hissued, hconsumed, ⟨-, -, hcompleted⟩ | ⟨hoff, -⟩⟩ := h.protocol.busy u hu
      · exact ⟨hissued, hconsumed, .inr ⟨rfl, rfl, by rw [hcompleted, hissued]⟩⟩
      · simp [hoff] at hexpect

/-- A statement of the lock. -/
theorem Inv.lock_inv (hin : s.lock.point s.cur ≠ .outside) :
    Inv { s with lock := s.lock.stepped } := by
  have hnext := h.lock.stepped_inv
  obtain ⟨hall, hidle, -⟩ := s.lock.stepped_threads
  have hnot : ¬(s.point s.cur).Waits :=
    fun hwaits => hin (h.outstanding_held hwaits.outstanding).1
  refine ⟨hnext, ?_, h.calls.stepped h.lock hin, fun t ht => ?_, ?_⟩
  · refine h.sema.of_bystanders hnext.sema.sched hidle hnot fun t ht => ?_
    obtain ⟨hmem, hne, -⟩ := h.sema.member t ht
    refine h.lock.stepped_bystander hmem (fun heq : t = s.cur => hnot (heq ▸ ht)) hne ?_
    simp [(h.outstanding_held ht.outstanding).1, LockPoint.Waits]
  · rw [hall, hidle]
    exact h.member t ht
  · exact h.protocol.congr (fun _ => Iff.rfl) rfl rfl rfl rfl rfl rfl

/-- The state after the start of a call. -/
def called (s : IdeSys) (call : Transfer) : IdeSys :=
  { s with
    lock := s.lock.move s.lock.lock .acqTest (s.lock.depth s.cur)
    point := update s.point s.cur (.inCall call .begin) }

/-- A call starts with `lock_acquire`. -/
theorem Inv.called_inv (henabled : Enabled s (.call call)) : Inv (s.called call) := by
  obtain ⟨hout, hidle⟩ := henabled
  have hcall := h.calls.out hout rfl
  refine h.go_inv (h.lock.acquire_inv ⟨hcall.1, hidle⟩
    (h.lock.room_to_nest hcall.1 hcall.2)) rfl rfl
    rfl (h.calls.acquire hcall.2 rfl) hidle (by simp [hout, Waits]) (by simp [Waits]) ?_
  refine h.protocol.congr (s.update_outstanding ?_) rfl rfl rfl rfl rfl rfl
  simp [hout, Outstanding]

/-- The state after the end of the loop, with the start of `lock_release`. -/
def released (s : IdeSys) (call : Transfer) : IdeSys :=
  { s with
    lock := s.lock.move s.lock.lock .relCheck (s.lock.depth s.cur)
    point := update s.point s.cur (.inCall call .leave) }

/-- A call that has moved all sectors ends with `lock_release`. -/
theorem Inv.released_inv {secsDone : UInt32}
    (hpoint : s.point s.cur = .inCall call (.test secsDone)) :
    Inv (s.released call) := by
  obtain ⟨hout, hdepth⟩ := h.calls.held hpoint rfl
  refine h.go_inv (h.lock.release_inv ⟨hout, by simp [hdepth]⟩) rfl rfl rfl
    (h.calls.release hdepth rfl)
    (h.member _ (by simp [hpoint])).2 (by simp [hpoint, Waits]) (by simp [Waits]) ?_
  refine h.protocol.congr (s.update_outstanding ?_) rfl rfl rfl rfl rfl rfl
  simp [hpoint, Outstanding]

/-- The state after the statement at a stage. -/
def stepped (s : IdeSys) (call : Transfer) (polled : Polled) : IdeStage → IdeSys
  | .begin => s.go (.inCall call (.test 0))
  | .test secsDone =>
    if secsDone < call.secCnt then
      s.go (.inCall call (.expect ⟨secsDone, secsOp call.secCnt secsDone⟩))
    else s.released call
  | .expect group => s.issue call group
  | .command group => s.go (.inCall call (if call.write then .poll group else .down group))
  | .poll group =>
    match polled with
    | .ready =>
      s.go (.inCall call
        (if call.write then .down group else .test (group.secsDone + group.secsOp)))
    | .busy | .failed => { s with lock.sched := s.lock.sched.after .yield }
  | .down group => { s with lock.sched.intr := false }.tryDown call s.lock.sched.intr group
  | .wait oldStatus group => s.tryDown call oldStatus group
  | .leave => s.go .outside

/-- The call ends in an `ASSERT` on its arguments, or in the `PANIC` after `busy_wait`. -/
def Refused (s : IdeSys) : Act → Prop
  | .call call => ¬(call.lba.toNat ≤ maxLba ∧ 0 < call.secCnt)
  | .statement polled =>
    match s.point s.cur with
    | .inCall call (.test secsDone) =>
      secsDone < call.secCnt ∧ maxLba < (call.lba + secsDone).toNat
    | .inCall _ (.poll _) => polled = .failed
    | _ => False
  | _ => False

/-- A statement of a call that does not stop. -/
theorem Inv.statement_eq {polled : Polled}
    (hpoint : s.point s.cur = .inCall call stage)
    (hok : ¬Refused s (.statement polled)) :
    statement polled s = .done () (s.stepped call polled stage) := by
  have hin : s.point s.cur ≠ .outside := by simp [hpoint]
  simp only [statement, bind_run, state_run, hpoint]
  simp only [Refused, hpoint] at hok
  cases stage with
  | begin | expect | command | leave => rfl
  | test secsDone =>
    simp only [stepped]
    by_cases hmore : secsDone < call.secCnt
    · have hrange : (call.lba + secsDone).toNat ≤ maxLba := by
        by_contra hbad
        exact hok ⟨hmore, Nat.lt_of_not_le hbad⟩
      simp only [if_pos hmore, hrange]
      rfl
    · simp [hmore, bind_run, goto, onLock, zoom, LockSys.exec_release_eq, released]
  | poll group =>
    cases polled with
    | busy => exact on_sched_eq h.lock.sema.sched.thread_yield_eq
    | ready => rfl
    | failed => exact absurd rfl hok
  | down group =>
    have hoff : Inv { s with lock.sched.intr := false } := by
      refine h.after_inv (a := .setIntr false) ?_ ?_ trivial trivial trivial
      · simp [hpoint, Waits]
      · simp [(h.calls.held hpoint rfl).1, LockPoint.Waits]
    exact hoff.sema_down_loop_eq hin call _ group
  | wait oldStatus group => exact h.sema_down_loop_eq hin call oldStatus group

/-- Every statement keeps the invariant. -/
theorem Inv.stepped_inv (polled : Polled) (hpoint : s.point s.cur = .inCall call stage)
    (hout : s.lock.point s.cur = .outside) : Inv (s.stepped call polled stage) := by
  have hin : s.point s.cur ≠ .outside := by simp [hpoint]
  have hlock : ¬(s.lock.point s.cur).Waits := by simp [hout, LockPoint.Waits]
  cases stage with
  | begin =>
    exact h.go_on hpoint (by simp)
      ⟨hout, h.calls.entered hpoint rfl hout⟩ (by simp [Waits, Outstanding])
  | test secsDone =>
    simp only [stepped]
    split
    · exact h.go_on hpoint (by simp) (h.calls.held hpoint rfl) (by simp [Waits, Outstanding])
    · exact h.released_inv hpoint
  | expect group => exact h.issue_inv hpoint
  | command group =>
    simp only [stepped]
    split
    case isTrue hwrite =>
      exact h.go_on hpoint (by simp) (h.calls.held hpoint rfl)
        (by simp [Waits, Outstanding, hwrite])
    case isFalse =>
      exact h.go_on hpoint (by simp) (h.calls.held hpoint rfl) (by simp [Waits, Outstanding])
  | poll group =>
    have hyield : Inv { s with lock.sched := s.lock.sched.after .yield } :=
      h.after_inv (by simp [hpoint, Waits]) hlock trivial trivial trivial
    cases polled with
    | busy | failed => exact hyield
    | ready =>
      simp only [stepped]
      split
      case isTrue hwrite =>
        exact h.go_on hpoint (by simp) (h.calls.held hpoint rfl)
          (by simp [Waits, Outstanding, hwrite])
      case isFalse hread =>
        exact h.go_on hpoint (by simp) (h.calls.held hpoint rfl)
          (by simp [Waits, Outstanding, hread])
  | down group =>
    have hoff : Inv { s with lock.sched.intr := false } :=
      h.after_inv (a := .setIntr false) (by simp [hpoint, Waits]) hlock trivial trivial
        trivial
    exact hoff.try_down_inv (by simp [hpoint, Outstanding]) rfl call _ group
  | wait oldStatus group =>
    have hwaits : (s.point s.cur).Waits := ⟨call, oldStatus, group, hpoint⟩
    -- A thread that is in the loop again has been woken up, and interrupts are still off.
    exact h.try_down_inv hwaits.outstanding (h.sema.waits_off hwaits) call oldStatus group
  | leave =>
    exact h.go_on hpoint (by simp)
      ⟨hout, h.calls.left hpoint rfl hout⟩ (by simp [Waits, Outstanding])

/-! ## Runs -/

/-- The current thread is interrupted in neither `sema_down`. -/
theorem Inv.intr_on (hintr : s.lock.sched.intr = true) :
    ¬(s.point s.cur).Waits ∧ ¬(s.lock.point s.cur).Waits := by
  constructor
  · intro hwaits
    have hoff : s.lock.sched.intr = false := h.sema.waits_off hwaits
    simp [hintr] at hoff
  · intro hwaits
    simp [h.lock.waits_off hwaits] at hintr

/-- Every action that is not refused succeeds and keeps the invariant. -/
theorem Inv.exec_spec {a : Act} (henabled : Enabled s a) (hok : ¬Refused s a) :
    wp never (exec a) s fun _ last => Inv last := by
  cases a with
  | sched a =>
    obtain ⟨hcur, henabled, hblocks, hspares⟩ := henabled
    have hboth : ¬(s.point s.cur).Waits ∧ ¬(s.lock.point s.cur).Waits := by
      rcases hcur with rfl | hcur
      · exact h.intr_on henabled
      · simp [hcur, (h.calls.out hcur rfl).1, Waits, LockPoint.Waits]
    have hdone := h.lock.sema.sched.exec_eq henabled hblocks
    exact (wp_of_done (on_sched_eq hdone)).2
      (h.after_inv hboth.1 hboth.2 henabled hblocks hspares)
  | interrupt =>
    obtain ⟨hcur, hlock⟩ := h.intr_on henabled
    exact (wp_of_done (h.intr_hd_handler_eq henabled hcur)).2 (h.answered_inv hlock)
  | call transfer =>
    obtain ⟨hlba, hcnt⟩ := not_not.1 hok
    have hdone : exec (.call transfer) s = .done () (s.called transfer) := by
      simp [exec, call, bind_run, assert, hlba, hcnt, goto, onLock,
        zoom, LockSys.exec_acquire_eq, called]
    exact (wp_of_done hdone).2 (h.called_inv henabled)
  | lock =>
    simp only [exec, onLock, wp_zoom]
    exact (wp_of_done h.lock.statement_eq).2 (h.lock_inv henabled)
  | statement polled =>
    obtain ⟨hin, hout⟩ := henabled
    cases hpoint : s.point s.cur with
    | outside => exact absurd hpoint hin
    | inCall call stage =>
      exact (wp_of_done (h.statement_eq hpoint hok)).2 (h.stepped_inv polled hpoint hout)

end

/-- An action that is refused ends in an `ASSERT` or `PANIC`. -/
theorem exec_refused {a : Act} (hbad : Refused s a) : exec a s = .stop .assertFailed := by
  cases a with
  | sched | interrupt | lock => exact absurd hbad id
  | call transfer =>
    by_cases hlba : transfer.lba.toNat ≤ maxLba
    · have hcnt : ¬0 < transfer.secCnt := fun hcnt => hbad ⟨hlba, hcnt⟩
      simp [exec, call, bind_run, assert, hlba, hcnt]
    · simp [exec, call, bind_run, assert, hlba]
  | statement polled =>
    simp only [Refused] at hbad
    split at hbad
    case h_1 call secsDone hpoint =>
      have hrange : ¬(call.lba + secsDone).toNat ≤ maxLba := Nat.not_le.2 hbad.2
      simp only [exec, statement, bind_run, state_run, hpoint, if_pos hbad.1, hrange]
      rfl
    case h_2 call group hpoint =>
      subst hbad
      simp [exec, statement, bind_run, hpoint]
    case h_3 => exact absurd hbad id

/-- What the channel promises in a state: at most one command is under way; the commands whose
`sema_down` has returned are all others, each once, and the interrupts that the handler has passed
on are one for each of them and one more while `disk_done` is 1; and an action fails only by an
`ASSERT` on the arguments of the call or by the `PANIC` after `busy_wait`. -/
structure CompletionOk (s : IdeSys) : Prop where
  single : ∀ t u, (s.point t).Outstanding → (s.point u).Outstanding → t = u
  finished : (∀ t, ¬(s.point t).Outstanding) → s.consumed = List.range s.issued
  underWay : ∀ t, (s.point t).Outstanding →
    s.issued = s.command t + 1 ∧ s.consumed = List.range (s.command t)
  completed : s.completed = s.consumed.length + s.diskDone.value.toNat
  binary : s.diskDone.value = 0 ∨ s.diskDone.value = 1
  returns : ∀ a, Enabled s a → ¬Refused s a → ∃ last, exec a s = .done () last

theorem Inv.completion_ok (h : Inv s) : CompletionOk s where
  single := fun _ _ ht hu => h.one_outstanding ht hu
  finished := fun hnone => (h.protocol.quiet hnone).2.2.1
  underWay := fun t ht => ⟨(h.protocol.busy t ht).1, (h.protocol.busy t ht).2.1⟩
  completed := by
    by_cases hnone : ∀ t, ¬(s.point t).Outstanding
    · obtain ⟨-, hvalue, hconsumed, hcompleted⟩ := h.protocol.quiet hnone
      simp [hvalue, hconsumed, hcompleted]
    · obtain ⟨t, ht⟩ := not_forall_not.1 hnone
      obtain ⟨hissued, hconsumed, ⟨-, hvalue, hcompleted⟩ | ⟨-, hvalue, hcompleted⟩⟩ :=
        h.protocol.busy t ht
      · simp [hvalue, hconsumed, hcompleted]
      · simp [hvalue, hconsumed, hcompleted, hissued]
  binary := h.sema.binary
  returns := by
    intro a henabled hok
    obtain ⟨_, last, hdone, -⟩ := wp_never_iff.1 (h.exec_spec henabled hok)
    exact ⟨last, hdone⟩

/-- In every state that threads reach which use a channel, whatever interrupts the disk sends, the
channel keeps its promises. -/
theorem completion_ok_of_run (hstart : Start s) (hrun : system.Run (fun _ _ => True) s last) :
    CompletionOk last := by
  have hstep : ∀ s a, Inv s → system.Enabled s a → True →
      wp any (system.exec a) s fun _ last => Inv last := by
    intro s a h henabled _
    by_cases hok : Refused s a
    · exact wp_any_iff.2 fun _ _ hdone => by simp [system, exec_refused hok] at hdone
    · exact wp_of_never (h.exec_spec henabled hok)
  exact (System.Run.invariant hstep hrun hstart.inv).completion_ok

instance (s : IdeSys) (a : Act) : Decidable (system.Enabled s a) := by
  cases a <;> dsimp only [system, Enabled] <;> infer_instance

/-- A channel after the start of the threads. -/
def three : IdeSys :=
  ⟨LockSys.three, false, ⟨0, []⟩, fun _ => .outside, 0, fun _ => 0, [], 0⟩

theorem three_start : Start three :=
  ⟨LockSys.three_start, rfl, rfl, rfl, fun _ => rfl, rfl, rfl, rfl⟩

/-- The main thread reads a sector and waits for the disk, which answers twice while `init` runs. -/
theorem completion_ok_twice : ∃ last, system.Run (fun _ _ => True) three last ∧
    last.issued = 1 ∧ last.completed = 1 ∧ last.diskDone.value = 1 ∧ CompletionOk last := by
  obtain ⟨last, hrun, hissued, hcompleted, hvalue⟩ := system.exists_run_of_follow
    (fun _ _ => True) (List.flatten [[.call ⟨false, 0, 1⟩], List.replicate 5 .lock,
      List.replicate 5 (.statement .ready), [.sched (.setIntr true), .interrupt, .interrupt]])
    three (fun s => s.issued = 1 ∧ s.completed = 1 ∧ s.diskDone.value = 1) (by decide +kernel)
  exact ⟨last, hrun, hissued, hcompleted, hvalue, completion_ok_of_run three_start hrun⟩

end IdeSys

end LosKernel.Device
