import LosKernel.Thread.Sched

/-!
# The invariant of the scheduler

`SchedInv` says where threads are between two operations: the current thread runs and no other
does, and the ready list holds the threads that are ready, each once. `Paused` is what holds of it
inside `schedule`. An operation that ends in `schedule` leads to `Sched.dispatch` of a paused
state; the equations `..._eq` say so.

`sched_ok_of_run` is the main result; `idle_waits` is a run in which the idle thread does not block
as its loop does.
-/

namespace LosKernel.Thread

open Prog

variable {s : Sched} {t u n j k : Nat} {stat : TaskStatus} {a : Action}

/-! ## Control blocks -/

@[simp] theorem Sched.modify_ready_list (s : Sched) (t : Nat) (f : Tcb → Tcb) :
    (s.modify t f).readyList = s.readyList := rfl

@[simp] theorem Sched.modify_all_list (s : Sched) (t : Nat) (f : Tcb → Tcb) :
    (s.modify t f).allList = s.allList := rfl

@[simp] theorem Sched.modify_cur (s : Sched) (t : Nat) (f : Tcb → Tcb) :
    (s.modify t f).cur = s.cur := rfl

@[simp] theorem Sched.modify_idle_thread (s : Sched) (t : Nat) (f : Tcb → Tcb) :
    (s.modify t f).idleThread = s.idleThread := rfl

@[simp] theorem Sched.modify_main_thread (s : Sched) (t : Nat) (f : Tcb → Tcb) :
    (s.modify t f).mainThread = s.mainThread := rfl

@[simp] theorem Sched.modify_intr (s : Sched) (t : Nat) (f : Tcb → Tcb) :
    (s.modify t f).intr = s.intr := rfl

@[simp] theorem Sched.modify_tcb_same (s : Sched) (t : Nat) (f : Tcb → Tcb) :
    (s.modify t f).tcb t = f (s.tcb t) := Function.update_self _ _ _

theorem Sched.modify_tcb_ne (s : Sched) (f : Tcb → Tcb) (h : u ≠ t) :
    (s.modify t f).tcb u = s.tcb u := Function.update_of_ne h _ _

@[simp] theorem Sched.modify_status_same (s : Sched) (t : Nat) (f : Tcb → Tcb) :
    (s.modify t f).status t = (f (s.tcb t)).status := by simp [Sched.status]

theorem Sched.modify_status_ne (s : Sched) (f : Tcb → Tcb) (h : u ≠ t) :
    (s.modify t f).status u = s.status u := by simp [Sched.status, s.modify_tcb_ne f h]

/-! ## The invariant -/

/-- The lists and the statuses agree, whoever runs. -/
structure ListsOk (s : Sched) : Prop where
  allNodup : s.allList.Nodup
  readyNodup : s.readyList.Nodup
  ready : ∀ t, t ∈ s.readyList ↔ t ∈ s.allList ∧ s.status t = .ready
  curIn : s.cur ∈ s.allList
  idleIn : s.idleThread ∈ s.allList

/-- The state between two operations. -/
structure SchedInv (s : Sched) : Prop extends ListsOk s where
  running : ∀ t ∈ s.allList, s.status t = .running ↔ t = s.cur
  idle : s.status s.idleThread = .running ∨ s.status s.idleThread = .ready ∨
    s.status s.idleThread = .blocked

/-- The state inside `schedule`: no thread runs. -/
structure Paused (s : Sched) : Prop extends ListsOk s where
  off : s.intr = false
  stopped : ∀ t ∈ s.allList, s.status t ≠ .running
  idle : s.status s.idleThread = .ready ∨ s.status s.idleThread = .blocked

theorem SchedInv.cur_running (h : SchedInv s) : s.status s.cur = .running :=
  (h.running s.cur h.curIn).2 rfl

theorem SchedInv.cur_not_ready (h : SchedInv s) : s.cur ∉ s.readyList := by
  intro hin
  have hready := ((h.ready s.cur).1 hin).2
  rw [h.cur_running] at hready
  simp at hready

/-- The thread that `schedule` picks: the first of the ready list, or the idle thread. -/
def Sched.next (s : Sched) : Nat := s.readyList.headD s.idleThread

/-- The state after the second half of `schedule`. -/
def Sched.dispatch (s : Sched) : Sched :=
  { s with
    readyList := s.readyList.tail
    cur := s.next
    intr := (s.tcb s.next).oldStatus }.modify s.next fun t => { t with status := .running }

theorem Paused.next_cases (h : Paused s) :
    s.next ∈ s.allList ∧ (s.next ∈ s.readyList ∧ s.status s.next = .ready ∨
      s.readyList = [] ∧ s.next = s.idleThread ∧ s.status s.next = .blocked) := by
  cases hlist : s.readyList with
  | nil =>
    have hnext : s.next = s.idleThread := by simp [Sched.next, hlist]
    rw [hnext]
    refine ⟨h.idleIn, .inr ⟨rfl, rfl, h.idle.resolve_left fun hready => ?_⟩⟩
    have hin := (h.ready s.idleThread).2 ⟨h.idleIn, hready⟩
    simp [hlist] at hin
  | cons first rest =>
    have hnext : s.next = first := by simp [Sched.next, hlist]
    have hin : first ∈ s.readyList := by simp [hlist]
    obtain ⟨hall, hready⟩ := (h.ready first).1 hin
    rw [hnext]
    exact ⟨hall, .inl ⟨by simp, hready⟩⟩

/-- `schedule` finds the idle thread blocked when the ready list is empty. -/
theorem Paused.idle_blocked (h : Paused s) (hempty : s.readyList = []) :
    s.status s.idleThread = .blocked := by
  obtain ⟨-, ⟨hin, -⟩ | ⟨-, hnext, hblocked⟩⟩ := h.next_cases
  · simp [hempty] at hin
  · rwa [hnext] at hblocked

/-- The next thread is there: the head of the ready list, or the idle thread. -/
theorem Paused.pick_next_eq (h : Paused s) : pickNext s = .done () s.dispatch := by
  cases hlist : s.readyList with
  | nil =>
    have hidle := h.idle_blocked hlist
    have hblocked : (s.tcb s.idleThread).status = .blocked := hidle
    simp [pickNext, bind_run, when, hlist, threadUnblock, intrDisable, intrSetStatus, Blocking,
      Sched.status, hblocked, assert, switchTo, Sched.dispatch, Sched.next, Sched.modify]
  | cons first rest =>
    simp [pickNext, bind_run, when, hlist, ret, switchTo, Sched.dispatch, Sched.next, Sched.modify]

/-! ## Dispatch -/

@[simp] theorem Sched.dispatch_all_list (s : Sched) : s.dispatch.allList = s.allList := rfl

@[simp] theorem Sched.dispatch_cur (s : Sched) : s.dispatch.cur = s.next := rfl

@[simp] theorem Sched.dispatch_idle_thread (s : Sched) : s.dispatch.idleThread = s.idleThread := rfl

@[simp] theorem Sched.dispatch_main_thread (s : Sched) : s.dispatch.mainThread = s.mainThread := rfl

@[simp] theorem Sched.dispatch_status_next (s : Sched) : s.dispatch.status s.next = .running := by
  simp [Sched.dispatch]

theorem Sched.dispatch_status_ne (s : Sched) (h : t ≠ s.next) : s.dispatch.status t = s.status t :=
  Sched.modify_status_ne _ _ h

theorem Sched.dispatch_old_status (s : Sched) (t : Nat) :
    (s.dispatch.tcb t).oldStatus = (s.tcb t).oldStatus := by
  by_cases h : t = s.next
  · simp [h, Sched.dispatch]
  · simp [Sched.dispatch, Sched.modify_tcb_ne _ _ h]

theorem Sched.dispatch_intr (s : Sched) : s.dispatch.intr = (s.tcb s.next).oldStatus := rfl

/-- The rest of the ready list does not hold the picked thread. -/
theorem Paused.mem_tail_iff (h : Paused s) : t ∈ s.readyList.tail ↔ t ∈ s.readyList ∧
    t ≠ s.next := by
  have hnodup := h.readyNodup
  cases hlist : s.readyList with
  | nil => simp
  | cons first rest =>
    have hnext : s.next = first := by simp [Sched.next, hlist]
    have hfirst : first ∉ rest := by
      rw [hlist] at hnodup
      exact (List.nodup_cons.1 hnodup).1
    rw [hnext, List.mem_cons]
    constructor
    · intro hin
      refine ⟨.inr hin, ?_⟩
      rintro rfl
      exact hfirst hin
    · rintro ⟨rfl | hin, hne⟩
      · exact absurd rfl hne
      · exact hin

/-- `schedule` restores the invariant. -/
theorem Paused.dispatch_inv (h : Paused s) : SchedInv s.dispatch := by
  obtain ⟨hnext, -⟩ := h.next_cases
  refine ⟨⟨h.allNodup, h.readyNodup.tail, fun t => ?_, hnext, h.idleIn⟩, fun t ht => ?_, ?_⟩
  · show t ∈ s.readyList.tail ↔ t ∈ s.allList ∧ s.dispatch.status t = .ready
    rw [h.mem_tail_iff]
    by_cases hcur : t = s.next
    · simp [hcur]
    · rw [s.dispatch_status_ne hcur, h.ready t]
      simp [hcur]
  · by_cases hcur : t = s.next
    · simp [hcur]
    · rw [s.dispatch_status_ne hcur]
      exact iff_of_false (h.stopped t ht) hcur
  · rw [s.dispatch_idle_thread]
    by_cases hcur : s.idleThread = s.next
    · exact .inl (by rw [hcur]; simp)
    · rw [s.dispatch_status_ne hcur]
      exact .inr h.idle

/-! ## Operations of the current thread -/

/-- The state in which `thread_block` calls `schedule`. -/
def Sched.blockCur (s : Sched) (stat : TaskStatus) : Sched :=
  { s with intr := false }.modify s.cur fun t => { t with status := stat, oldStatus := s.intr }

/-- The state in which `thread_yield` calls `schedule`. -/
def Sched.yieldCur (s : Sched) : Sched :=
  { s with intr := false, readyList := s.readyList ++ [s.cur] }.modify s.cur
    fun t => { t with status := .ready, oldStatus := s.intr }

/-- The state in which the timer handler picks another thread. -/
def Sched.preempt (s : Sched) : Sched :=
  { s with intr := false, readyList := s.readyList ++ [s.cur] }.modify s.cur
    fun t => { t with
      elapsedTicks := t.elapsedTicks + 1, oldStatus := true, ticks := t.priority, status := .ready }

/-- The state after a timer interrupt that leaves the thread running. -/
def Sched.tick (s : Sched) : Sched :=
  s.modify s.cur fun t => { t with
    elapsedTicks := t.elapsedTicks + 1, oldStatus := true, ticks := t.ticks - 1 }

theorem SchedInv.block_paused (h : SchedInv s) (hstat : Blocking stat)
    (hidle : s.cur = s.idleThread → stat = .blocked) : Paused (s.blockCur stat) := by
  have hne : stat ≠ .ready ∧ stat ≠ .running := by
    rcases hstat with rfl | rfl | rfl <;> simp
  have hother : ∀ t, t ≠ s.cur → (s.blockCur stat).status t = s.status t :=
    fun t ht => Sched.modify_status_ne _ _ ht
  have hself : (s.blockCur stat).status s.cur = stat := by simp [Sched.blockCur]
  refine ⟨⟨h.allNodup, h.readyNodup, fun t => ?_, h.curIn, h.idleIn⟩, rfl, fun t ht => ?_, ?_⟩
  · show t ∈ s.readyList ↔ t ∈ s.allList ∧ (s.blockCur stat).status t = .ready
    by_cases hcur : t = s.cur
    · rw [hcur, hself]
      exact iff_of_false h.cur_not_ready fun hready => hne.1 hready.2
    · rw [hother t hcur]
      exact h.ready t
  · by_cases hcur : t = s.cur
    · rw [hcur, hself]
      exact hne.2
    · rw [hother t hcur]
      exact fun hrun => hcur ((h.running t ht).1 hrun)
  · show (s.blockCur stat).status s.idleThread = .ready ∨
      (s.blockCur stat).status s.idleThread = .blocked
    by_cases hcur : s.idleThread = s.cur
    · rw [hcur, hself]
      exact .inr (hidle hcur.symm)
    · rw [hother _ hcur]
      exact h.idle.resolve_left fun hrun => hcur ((h.running _ h.idleIn).1 hrun)

/-- The current thread goes to the end of the ready list. -/
theorem SchedInv.requeue_paused (h : SchedInv s) (change : Tcb → Tcb)
    (hchange : ∀ t, (change t).status = .ready) :
    Paused ({ s with intr := false, readyList := s.readyList ++ [s.cur] }.modify s.cur change) := by
  generalize hmid : ({ s with intr := false, readyList := s.readyList ++ [s.cur] } : Sched).modify
    s.cur change = mid
  have hother : ∀ t, t ≠ s.cur → mid.status t = s.status t := by
    intro t ht
    rw [← hmid]
    exact Sched.modify_status_ne _ _ ht
  have hself : mid.status s.cur = .ready := by
    rw [← hmid, Sched.modify_status_same, hchange]
  have hlist : mid.readyList = s.readyList ++ [s.cur] := by rw [← hmid]; rfl
  have hall : mid.allList = s.allList := by rw [← hmid]; rfl
  have hidle : mid.idleThread = s.idleThread := by rw [← hmid]; rfl
  have hcurr : mid.cur = s.cur := by rw [← hmid]; rfl
  refine ⟨⟨by rw [hall]; exact h.allNodup, ?_, fun t => ?_, ?_, ?_⟩, by rw [← hmid]; rfl,
    fun t ht => ?_, ?_⟩
  · rw [hlist, List.nodup_append]
    refine ⟨h.readyNodup, List.nodup_singleton _, ?_⟩
    intro t ht u hu heq
    rw [List.mem_singleton.1 hu] at heq
    exact h.cur_not_ready (heq ▸ ht)
  · rw [hlist, hall, List.mem_append]
    by_cases hcur : t = s.cur
    · rw [hcur, hself]
      simp [h.curIn]
    · rw [hother t hcur, h.ready t]
      simp [hcur]
  · rw [hcurr, hall]
    exact h.curIn
  · rw [hidle, hall]
    exact h.idleIn
  · rw [hall] at ht
    by_cases hcur : t = s.cur
    · rw [hcur, hself]
      simp
    · rw [hother t hcur]
      exact fun hrun => hcur ((h.running t ht).1 hrun)
  · rw [hidle]
    by_cases hcur : s.idleThread = s.cur
    · rw [hcur, hself]
      exact .inl rfl
    · rw [hother _ hcur]
      exact h.idle.resolve_left fun hrun => hcur ((h.running _ h.idleIn).1 hrun)

theorem SchedInv.yield_paused (h : SchedInv s) : Paused s.yieldCur :=
  h.requeue_paused _ fun _ => rfl

theorem SchedInv.preempt_paused (h : SchedInv s) : Paused s.preempt :=
  h.requeue_paused _ fun _ => rfl

/-- A timer interrupt within the ticks of the current thread. -/
theorem SchedInv.tick_inv (h : SchedInv s) : SchedInv s.tick := by
  have hstatus : ∀ t, s.tick.status t = s.status t := by
    intro t
    by_cases hcur : t = s.cur
    · rw [hcur, Sched.tick, Sched.modify_status_same]
      rfl
    · exact Sched.modify_status_ne _ _ hcur
  refine ⟨⟨h.allNodup, h.readyNodup, fun t => ?_, h.curIn, h.idleIn⟩, fun t ht => ?_, ?_⟩
  · rw [hstatus]
    exact h.ready t
  · rw [hstatus]
    exact h.running t ht
  · rw [hstatus]
    exact h.idle

/-- `schedule` does not stop. -/
theorem Paused.schedule_eq (h : Paused s) : schedule s = .done () s.dispatch := by
  have hcur := h.stopped s.cur h.curIn
  simp [schedule, requeue, bind_run, assert, h.off, when, hcur, ret, h.pick_next_eq]

/-- `thread_block` does not stop. -/
theorem SchedInv.thread_block_eq (h : SchedInv s) (hstat : Blocking stat)
    (hidle : s.cur = s.idleThread → stat = .blocked) :
    threadBlock stat s = .done () (s.blockCur stat).dispatch := by
  have henter : enterBlock stat s = .done () (s.blockCur stat) := by
    simp [enterBlock, bind_run, assert, hstat, intrDisable, Sched.blockCur]
  simp [threadBlock, bind_run, henter, (h.block_paused hstat hidle).schedule_eq]

/-- `thread_yield` does not stop. -/
theorem SchedInv.thread_yield_eq (h : SchedInv s) : threadYield s =
    .done () s.yieldCur.dispatch := by
  have henter : enterYield s = .done () s.yieldCur := by
    simp [enterYield, bind_run, assert, h.cur_not_ready, intrDisable, Sched.yieldCur]
  simp [threadYield, bind_run, henter, h.yield_paused.schedule_eq]

/-- The timer handler does not stop. -/
theorem SchedInv.intr_timer_handler_eq (h : SchedInv s) (hintr : s.intr = true) :
    intrTimerHandler s =
      .done () (if (s.tcb s.cur).ticks = 0 then s.preempt.dispatch else s.tick) := by
  have hrun : (s.tcb s.cur).status = .running := h.cur_running
  by_cases hticks : (s.tcb s.cur).ticks = 0
  · have hpick := h.preempt_paused.pick_next_eq
    simp only [Sched.preempt] at hpick
    simp [intrTimerHandler, enterTimer, bind_run, hticks, schedule, requeue, hrun,
      assert, when, h.cur_not_ready, Sched.preempt]
    simpa [Sched.modify] using hpick
  · simp [intrTimerHandler, enterTimer, bind_run, hticks, Sched.modify, Sched.tick, hintr]

/-! ## Operations on other threads -/

/-- The state after `thread_unblock`. -/
def Sched.wake (s : Sched) (t : Nat) : Sched :=
  { s with readyList := t :: s.readyList }.modify t fun tcb => { tcb with status := .ready }

/-- The state after `thread_start`. -/
def Sched.add (s : Sched) (t : Nat) (prio : UInt8) : Sched :=
  { s with readyList := s.readyList ++ [t], allList := s.allList ++ [t] }.modify t
    fun _ => ⟨.ready, prio, prio, 0, true⟩

/-- The state after `thread_exit`. -/
def Sched.remove (s : Sched) (t : Nat) : Sched :=
  { s with
    intr := false
    readyList := s.readyList.erase t
    allList := s.allList.erase t }.modify t fun tcb => { tcb with status := .died }

theorem Sched.wake_tcb_ne (s : Sched) (h : u ≠ t) : (s.wake t).tcb u = s.tcb u :=
  Sched.modify_tcb_ne _ _ h

theorem Sched.add_tcb_ne (s : Sched) (prio : UInt8) (h : u ≠ t) : (s.add t prio).tcb u = s.tcb u :=
  Sched.modify_tcb_ne _ _ h

theorem Sched.remove_tcb_ne (s : Sched) (h : u ≠ t) : (s.remove t).tcb u = s.tcb u :=
  Sched.modify_tcb_ne _ _ h

theorem SchedInv.not_ready (h : SchedInv s) (hblocking : Blocking (s.status t)) : t ∉
    s.readyList := by
  intro hin
  have hready := ((h.ready t).1 hin).2
  rw [hready] at hblocking
  simp [Blocking] at hblocking

/-- `thread_unblock` does not stop. -/
theorem SchedInv.thread_unblock_eq (h : SchedInv s) (hblocking : Blocking (s.status t)) :
    threadUnblock t s = .done () (s.wake t) := by
  have hready : s.status t ≠ .ready := by
    intro heq
    simp [heq, Blocking] at hblocking
  have hstatus : ({ s with intr := false } : Sched).status t = s.status t := rfl
  simp [threadUnblock, bind_run, intrDisable, intrSetStatus, assert, hstatus, hblocking, when,
    hready, h.not_ready hblocking, Sched.wake,
    Sched.modify]

/-- A blocked thread becomes ready. -/
theorem SchedInv.wake_inv (h : SchedInv s) (hin : t ∈ s.allList)
    (hblocking : Blocking (s.status t)) : SchedInv (s.wake t) := by
  have hother : ∀ u, u ≠ t → (s.wake t).status u = s.status u :=
    fun u hu => Sched.modify_status_ne _ _ hu
  have hself : (s.wake t).status t = .ready := by simp [Sched.wake]
  have hcur : t ≠ s.cur := by
    rintro rfl
    simp [h.cur_running, Blocking] at hblocking
  refine ⟨⟨h.allNodup, List.nodup_cons.2 ⟨h.not_ready hblocking, h.readyNodup⟩,
    fun u => ?_, h.curIn,
    h.idleIn⟩, fun u hu => ?_, ?_⟩
  · show u ∈ t :: s.readyList ↔ u ∈ s.allList ∧ (s.wake t).status u = .ready
    by_cases hut : u = t
    · rw [hut, hself]
      simp [hin]
    · rw [hother u hut, List.mem_cons, h.ready u]
      simp [hut]
  · show (s.wake t).status u = .running ↔ u = s.cur
    by_cases hut : u = t
    · rw [hut, hself]
      exact iff_of_false (by simp) hcur
    · rw [hother u hut]
      exact h.running u hu
  · show (s.wake t).status s.idleThread = .running ∨ (s.wake t).status s.idleThread = .ready ∨
      (s.wake t).status s.idleThread = .blocked
    by_cases hut : s.idleThread = t
    · rw [hut, hself]
      exact .inr (.inl rfl)
    · rw [hother _ hut]
      exact h.idle

/-- `thread_start` does not stop. -/
theorem SchedInv.thread_start_eq (h : SchedInv s) (hnew : t ∉ s.allList) (hmain : t ≠ s.mainThread)
    (prio : UInt8) : threadStart t prio s = .done () (s.add t prio) := by
  have hready : t ∉ s.readyList := fun hin => hnew ((h.ready t).1 hin).1
  simp [threadStart, initThread, bind_run, assert, hready, hnew, hmain, Sched.add, Sched.modify]

/-- A new thread is ready. -/
theorem SchedInv.add_inv (h : SchedInv s) (hnew : t ∉ s.allList) (prio : UInt8) :
    SchedInv (s.add t prio) := by
  have hready : t ∉ s.readyList := fun hin => hnew ((h.ready t).1 hin).1
  have hother : ∀ u, u ≠ t → (s.add t prio).status u = s.status u :=
    fun u hu => Sched.modify_status_ne _ _ hu
  have hself : (s.add t prio).status t = .ready := by simp [Sched.add]
  have hold : ∀ u ∈ s.allList, u ≠ t := by
    rintro u hu rfl
    exact hnew hu
  have hnodup : ∀ {l : List Nat}, l.Nodup → t ∉ l → (l ++ [t]).Nodup := by
    intro l hl hnot
    refine List.nodup_append.2 ⟨hl, List.nodup_singleton t, fun u hu v hv heq => ?_⟩
    rw [List.mem_singleton.1 hv] at heq
    exact hnot (heq ▸ hu)
  refine ⟨⟨hnodup h.allNodup hnew, hnodup h.readyNodup hready, fun u => ?_,
    List.mem_append_left _ h.curIn, List.mem_append_left _ h.idleIn⟩, fun u hu => ?_, ?_⟩
  · show u ∈ s.readyList ++ [t] ↔ u ∈ s.allList ++ [t] ∧ (s.add t prio).status u = .ready
    rw [List.mem_append]
    by_cases hut : u = t
    · rw [hut, hself]
      simp
    · rw [hother u hut, h.ready u]
      simp [hut]
  · show (s.add t prio).status u = .running ↔ u = s.cur
    by_cases hut : u = t
    · rw [hut, hself]
      exact iff_of_false (by simp) (hold _ h.curIn).symm
    · rw [hother u hut]
      have hin : u ∈ s.allList := by
        rcases List.mem_append.1 hu with hin | hin
        · exact hin
        · exact absurd (List.mem_singleton.1 hin) hut
      exact h.running u hin
  · show (s.add t prio).status s.idleThread = .running ∨
      (s.add t prio).status s.idleThread = .ready ∨
      (s.add t prio).status s.idleThread = .blocked
    rw [hother _ (hold _ h.idleIn)]
    exact h.idle

theorem thread_exit_eq (s : Sched) (t : Nat) : threadExit t s = .done () (s.remove t) := rfl

/-- A hanging thread is removed. -/
theorem SchedInv.remove_inv (h : SchedInv s) (hhang : s.status t = .hanging) :
    SchedInv (s.remove t) := by
  have hother : ∀ u, u ≠ t → (s.remove t).status u = s.status u :=
    fun u hu => Sched.modify_status_ne _ _ hu
  have hcur : s.cur ≠ t := by
    rintro rfl
    simp [h.cur_running] at hhang
  have hidle : s.idleThread ≠ t := by
    rintro rfl
    have := h.idle
    simp [hhang] at this
  have hmem : ∀ u, u ∈ s.allList.erase t ↔ u ≠ t ∧ u ∈ s.allList :=
    fun u => h.allNodup.mem_erase_iff
  refine ⟨⟨h.allNodup.erase t, h.readyNodup.erase t, fun u => ?_, (hmem _).2 ⟨hcur, h.curIn⟩,
    (hmem _).2 ⟨hidle, h.idleIn⟩⟩, fun u hu => ?_, ?_⟩
  · show u ∈ s.readyList.erase t ↔ u ∈ s.allList.erase t ∧ (s.remove t).status u = .ready
    rw [h.readyNodup.mem_erase_iff, hmem]
    by_cases hut : u = t
    · simp [hut]
    · rw [hother u hut, h.ready u]
      simp [hut]
  · show (s.remove t).status u = .running ↔ u = s.cur
    obtain ⟨hut, hin⟩ := (hmem u).1 hu
    rw [hother u hut]
    exact h.running u hin
  · show (s.remove t).status s.idleThread = .running ∨ (s.remove t).status s.idleThread = .ready ∨
      (s.remove t).status s.idleThread = .blocked
    rw [hother _ hidle]
    exact h.idle

theorem SchedInv.set_intr (h : SchedInv s) (status : Bool) : SchedInv { s with intr := status } :=
  ⟨⟨h.allNodup, h.readyNodup, h.ready, h.curIn, h.idleIn⟩, h.running, h.idle⟩

/-! ## Runs -/

/-- `s` is a state that `thread_init` leaves. -/
def Booted (s : Sched) : Prop :=
  ∃ main init idle, init ≠ 0 ∧ init ≠ main ∧ idle ≠ init ∧ idle ≠ main ∧
    threadInit init idle (Sched.start main) = .done () s

/-- The invariant holds after `thread_init`. -/
theorem booted_inv (h : Booted s) : SchedInv s := by
  obtain ⟨main, init, idle, hzero, hinit, hidle, hmain, hboot⟩ := h
  simp [threadInit, threadStart, makeMainThread, initThread, bind_run, assert, Sched.start,
    Sched.modify, hzero, hinit.symm, hidle, hmain] at hboot
  subst hboot
  refine ⟨⟨?_, ?_, fun t => ?_, ?_, ?_⟩, fun t ht => ?_, ?_⟩
  · simp [hinit, hidle.symm, hmain.symm]
  · simp [hidle.symm]
  · by_cases h1 : t = idle
    · simp [h1, Sched.status]
    · by_cases h2 : t = main
      · simp [h2, hinit.symm, hmain.symm, Sched.status]
      · by_cases h3 : t = init
        · simp [h3, hidle.symm, hinit, Sched.status]
        · simp [h1, h2, h3]
  · simp
  · simp
  · simp only [List.mem_cons, List.not_mem_nil, or_false] at ht
    rcases ht with rfl | rfl | rfl
    · simp [Sched.status, hidle.symm, hinit]
    · simp [Sched.status, hmain.symm]
    · simp [Sched.status, hmain]
  · simp [Sched.status]

/-- The idle thread blocks itself with `TASK_BLOCKED` only. -/
def IdleBlocks (s : Sched) : Action → Prop
  | .block stat => s.cur = s.idleThread → stat = .blocked
  | _ => True

/-- The state after an action. -/
def Sched.after (s : Sched) : Action → Sched
  | .timer => if (s.tcb s.cur).ticks = 0 then s.preempt.dispatch else s.tick
  | .block stat => (s.blockCur stat).dispatch
  | .unblock pthread => s.wake pthread
  | .yield => s.yieldCur.dispatch
  | .start thread prio => s.add thread prio
  | .exit threadOver => s.remove threadOver
  | .setIntr status => { s with intr := status }

theorem blocking_of_unblock (henabled : (Action.unblock t).Enabled s) : Blocking (s.status t) := by
  obtain ⟨-, -, hstatus⟩ := henabled
  rcases hstatus with hstatus | hstatus <;> simp [hstatus, Blocking]

/-- Every action succeeds. -/
theorem SchedInv.exec_eq (h : SchedInv s) (henabled : a.Enabled s) (hidle : IdleBlocks s a) :
    a.exec s = .done () (s.after a) := by
  cases a with
  | timer => exact h.intr_timer_handler_eq henabled
  | block stat => exact h.thread_block_eq henabled hidle
  | unblock pthread => exact h.thread_unblock_eq (blocking_of_unblock henabled)
  | yield => exact h.thread_yield_eq
  | start thread prio => exact h.thread_start_eq henabled.1 henabled.2 prio
  | exit threadOver => exact thread_exit_eq s threadOver
  | setIntr status => rfl

/-- Every action keeps the invariant. -/
theorem SchedInv.after_inv (h : SchedInv s) (henabled : a.Enabled s) (hidle : IdleBlocks s a) :
    SchedInv (s.after a) := by
  cases a with
  | timer =>
    simp only [Sched.after]
    split
    · exact h.preempt_paused.dispatch_inv
    · exact h.tick_inv
  | block stat => exact (h.block_paused henabled hidle).dispatch_inv
  | unblock pthread => exact h.wake_inv henabled.1 (blocking_of_unblock henabled)
  | yield => exact h.yield_paused.dispatch_inv
  | start thread prio => exact h.add_inv henabled.1 prio
  | exit threadOver => exact h.remove_inv henabled.2
  | setIntr status => exact h.set_intr status

/-- What an action does up to the point where `schedule` tests the ready list; `false` if it does
not call `schedule`. -/
def Action.toTest : Action → Call Bool
  | .timer => do
    if ← enterTimer then
      requeue
      pure true
    else
      pure false
  | .block stat => do
    enterBlock stat
    requeue
    pure true
  | .yield => do
    enterYield
    requeue
    pure true
  | _ => pure false

/-- What the scheduler promises in a state, as long as the next action meets `cond`. -/
structure SchedOk (cond : Sched → Action → Prop) (s : Sched) : Prop where
  running : s.cur ∈ s.allList ∧ ∀ t ∈ s.allList, s.status t = .running ↔ t = s.cur
  ready : ∀ t, s.readyList.count t = if t ∈ s.allList ∧ s.status t = .ready then 1 else 0
  idle : ∀ (a : Action) (mid : Sched), a.Enabled s → cond s a → a.toTest s = .done true mid →
    mid.readyList = [] → mid.status mid.idleThread = .blocked
  returns : ∀ a : Action, a.Enabled s → cond s a → ∃ last, a.exec s = .done () last

/-- The state in which `schedule` tests the ready list is paused. -/
theorem SchedInv.to_test_paused (h : SchedInv s) {mid : Sched} (henabled : a.Enabled s)
    (hidle : IdleBlocks s a) (htest : a.toTest s = .done true mid) : Paused mid := by
  have hskip : ∀ {p : Sched}, Paused p → requeue p = .done () p := by
    intro p hp
    have hcur := hp.stopped p.cur hp.curIn
    simp [requeue, bind_run, assert, hp.off, when, hcur, ret]
  cases a with
  | timer =>
    have hrun : (s.tcb s.cur).status = .running := h.cur_running
    by_cases hticks : (s.tcb s.cur).ticks = 0
    · have hpaused := h.preempt_paused
      simp [Action.toTest, enterTimer, bind_run, hticks, requeue, hrun, assert, when,
        h.cur_not_ready] at htest
      rw [← htest]
      simpa [Sched.preempt, Sched.modify] using hpaused
    · simp [Action.toTest, enterTimer, bind_run, hticks] at htest
  | block stat =>
    have hpaused := h.block_paused henabled hidle
    have henter : enterBlock stat s = .done () (s.blockCur stat) := by
      have hstat : Blocking stat := henabled
      simp [enterBlock, bind_run, assert, hstat, intrDisable, Sched.blockCur]
    simp [Action.toTest, bind_run, henter, hskip hpaused] at htest
    exact htest ▸ hpaused
  | yield =>
    have hpaused := h.yield_paused
    have henter : enterYield s = .done () s.yieldCur := by
      simp [enterYield, bind_run, assert, h.cur_not_ready, intrDisable, Sched.yieldCur]
    simp [Action.toTest, bind_run, henter, hskip hpaused] at htest
    exact htest ▸ hpaused
  | unblock | start | exit | setIntr => simp [Action.toTest] at htest

theorem SchedInv.sched_ok (h : SchedInv s) : SchedOk IdleBlocks s where
  running := ⟨h.curIn, h.running⟩
  ready := by
    intro t
    rw [h.readyNodup.count]
    simp only [h.ready t]
  idle := by
    intro a mid henabled hidle htest hempty
    exact (h.to_test_paused henabled hidle htest).idle_blocked hempty
  returns := by
    intro a henabled hidle
    exact ⟨s.after a, h.exec_eq henabled hidle⟩

/-- In every state that a booted system reaches, the scheduler keeps its promises. -/
theorem sched_ok_of_run {last : Sched} (hboot : Booted s) (hrun : system.Run IdleBlocks s last) :
    SchedOk IdleBlocks last := by
  have hstep : ∀ s a, SchedInv s → system.Enabled s a → IdleBlocks s a →
      wp any (system.exec a) s fun _ last => SchedInv last := by
    intro s a h henabled hidle
    exact (wp_of_done (h.exec_eq henabled hidle)).2 (h.after_inv henabled hidle)
  exact (System.Run.invariant hstep hrun (booted_inv hboot)).sched_ok

/-- The state after `thread_init` with three control blocks. -/
def Sched.three : Sched :=
  match threadInit 0xc0100000 0xc0101000 (Sched.start 0xc009e000) with
  | .done _ s => s
  | .stop _ => Sched.start 0

theorem three_booted : Booted Sched.three :=
  ⟨0xc009e000, 0xc0100000, 0xc0101000, by decide, by decide, by decide, by decide, rfl⟩

instance (s : Sched) : (a : Action) → Decidable (IdleBlocks s a)
  | .timer | .block _ | .unblock _ | .yield | .start _ _ | .exit _ | .setIntr _ => by
    unfold IdleBlocks
    infer_instance

instance (s : Sched) (a : Action) : Decidable (system.Enabled s a) :=
  inferInstanceAs (Decidable (a.Enabled s))

/-- The main thread and `init` block, the idle thread blocks in its turn and is chosen again. -/
theorem sched_ok_idle_again : ∃ last, system.Run IdleBlocks Sched.three last ∧
    last.cur = last.idleThread ∧ SchedOk IdleBlocks last := by
  obtain ⟨last, hrun, hidle⟩ := system.exists_run_of_follow IdleBlocks
    [.block .blocked, .block .waiting, .block .blocked] Sched.three
    (fun s => s.cur = s.idleThread) (by decide)
  exact ⟨last, hrun, hidle, sched_ok_of_run three_booted hrun⟩

/-- If the idle thread could wait, then `schedule` would find it waiting when the ready list is
empty. -/
theorem idle_waits : ∃ last, system.Run (fun _ _ => True) Sched.three last ∧
    ¬SchedOk (fun _ _ => True) last := by
  obtain ⟨last, hrun, htest⟩ := system.exists_run_of_follow (fun _ _ => True)
    [.block .blocked, .block .blocked] Sched.three
    (fun s => (match (Action.block .waiting).toTest s with
      | .done found mid => (found, mid.readyList, mid.status mid.idleThread)
      | .stop _ => (false, [], .blocked)) = (true, [], .waiting)) (by decide)
  refine ⟨last, hrun, fun hok => ?_⟩
  cases hmid : (Action.block .waiting).toTest last with
  | stop reason => simp [hmid] at htest
  | done found mid =>
    simp only [hmid, Prod.mk.injEq] at htest
    obtain ⟨rfl, hempty, hstatus⟩ := htest
    have henabled : (Action.block .waiting).Enabled last := .inr (.inl rfl)
    have hblocked := hok.idle _ mid henabled trivial hmid hempty
    rw [hstatus] at hblocked
    exact absurd hblocked (by decide)

/-! ## Waiting for the processor -/

/-- The timer interrupts for which the ticks of the threads `us` last. -/
def Sched.ticksOf (s : Sched) (us : List Nat) : Nat :=
  (us.map fun u => (s.tcb u).ticks.toNat + 1).sum

/-- Thread `t` runs, or it is ready and the ticks of the running thread and of those in front of `t`
last for at most `n` timer interrupts. -/
def Sched.Waits (s : Sched) (t n : Nat) : Prop :=
  ∃ ahead behind, s.cur :: s.readyList = ahead ++ t :: behind ∧ s.ticksOf ahead ≤ n

/-- The action puts a thread in front of those that wait. -/
def Action.wakes : Action → Bool
  | .unblock _ => true
  | _ => false

section

variable {next : Sched}

theorem Sched.modify_ticks {change : Tcb → Tcb}
    (h : u = t → (change (s.tcb u)).ticks = (s.tcb u).ticks) :
    ((s.modify t change).tcb u).ticks = (s.tcb u).ticks := by
  by_cases hu : u = t
  · subst hu
    simpa using h rfl
  · rw [Sched.modify_tcb_ne _ _ hu]

theorem Sched.dispatch_ticks (s : Sched) : (s.dispatch.tcb u).ticks = (s.tcb u).ticks :=
  Sched.modify_ticks fun _ => rfl

/-- Only a timer interrupt changes ticks, and only those of the running thread. -/
theorem after_ticks (henabled : a.Enabled s) (hu : u ∈ s.allList) (ha : u = s.cur → a ≠ .timer) :
    ((s.after a).tcb u).ticks = (s.tcb u).ticks := by
  cases a with
  | timer =>
    have hcur : u ≠ s.cur := fun heq => ha heq rfl
    simp only [Sched.after]
    split
    · rw [Sched.dispatch_ticks, Sched.preempt, Sched.modify_tcb_ne _ _ hcur]
    · rw [Sched.tick, Sched.modify_tcb_ne _ _ hcur]
  | block stat => exact (Sched.dispatch_ticks _).trans (by simp [Sched.blockCur,
    Sched.modify_ticks])
  | yield => exact (Sched.dispatch_ticks _).trans (by simp [Sched.yieldCur, Sched.modify_ticks])
  | unblock pthread => simp [Sched.after, Sched.wake, Sched.modify_ticks]
  | start thread prio =>
    have hne : u ≠ thread := fun heq => henabled.1 (heq ▸ hu)
    simp only [Sched.after, s.add_tcb_ne prio hne]
  | exit threadOver => simp [Sched.after, Sched.remove, Sched.modify_ticks]
  | setIntr => rfl

/-- The threads `first` are now in front of those that were ready. -/
theorem Sched.Waits.step (first rest : List Nat) (hwaits : s.Waits t n) (hcur : s.cur ≠ t)
    (hqueue : next.cur :: next.readyList = first ++ (s.readyList ++ rest))
    (hsame : ∀ u ∈ s.readyList, (next.tcb u).ticks = (s.tcb u).ticks)
    (hk : next.ticksOf first + k ≤ (s.tcb s.cur).ticks.toNat + 1 + j) :
    ∃ m, next.Waits t m ∧ m + k ≤ n + j := by
  obtain ⟨_ | ⟨cur, ahead⟩, behind, hready, hn⟩ := hwaits
  · exact absurd (List.cons.inj hready).1 hcur
  obtain ⟨hfirst, hlist⟩ := List.cons.inj hready
  change s.readyList = ahead ++ t :: behind at hlist
  refine ⟨_, ⟨first ++ ahead, behind ++ rest, by simp [hqueue, hlist], le_rfl⟩, ?_⟩
  have hahead : next.ticksOf ahead = s.ticksOf ahead := by
    unfold Sched.ticksOf
    rw [List.map_congr_left fun u hu => by rw [hsame u (by simp [hlist, hu])]]
  simp only [Sched.ticksOf, List.map_append, List.sum_append, List.map_cons,
    List.sum_cons, ← hfirst]
    at hn hk hahead ⊢
  omega

/-- A timer interrupt shortens the time a thread has to wait, and only a wake-up makes it longer. -/
theorem SchedInv.after_waits (h : SchedInv s) (henabled : a.Enabled s) (hwaits : s.Waits t n)
    (hcur : s.cur ≠ t) :
    ∃ m, (s.after a).Waits t m ∧ m + [a].count .timer ≤ n + 256 * [a].countP (·.wakes) := by
  have hsame : ∀ u ∈ s.readyList, ((s.after a).tcb u).ticks = (s.tcb u).ticks := by
    intro u hu
    have hne : u ≠ s.cur := fun heq => h.cur_not_ready (heq ▸ hu)
    exact after_ticks henabled ((h.ready u).1 hu).1 (absurd · hne)
  have hkeep : a ≠ .timer → ((s.after a).tcb s.cur).ticks = (s.tcb s.cur).ticks :=
    fun ha => after_ticks henabled h.curIn fun _ => ha
  -- the list is not empty, so `schedule` picks its first thread
  obtain ⟨u, l, hl⟩ : ∃ u l, s.readyList = u :: l := by
    obtain ⟨_ | ⟨_, _ | ⟨u, ahead⟩⟩, behind, hready, -⟩ := hwaits <;> grind
  cases a with
  | timer =>
    by_cases hticks : (s.tcb s.cur).ticks = 0
    · refine hwaits.step [] [s.cur] hcur ?_ hsame (by simp [Sched.ticksOf, Action.wakes])
      simp [Sched.after, hticks, Sched.dispatch, Sched.preempt, Sched.next, hl]
    · refine hwaits.step [s.cur] [] hcur ?_ hsame ?_
      · simp [Sched.after, hticks, Sched.tick]
      · have hlt := (s.tcb s.cur).ticks.toNat_lt
        have hpos := mt UInt8.toNat_inj.1 hticks
        simp [Sched.after, hticks, Sched.tick, UInt8.toNat_sub, Sched.ticksOf] at hpos ⊢
        omega
  | block stat =>
    refine hwaits.step [] [] hcur ?_ hsame (by simp [Sched.ticksOf])
    simp [Sched.after, Sched.dispatch, Sched.blockCur, Sched.next, hl]
  | yield =>
    refine hwaits.step [] [s.cur] hcur ?_ hsame (by simp [Sched.ticksOf])
    simp [Sched.after, Sched.dispatch, Sched.yieldCur, Sched.next, hl]
  | unblock pthread =>
    refine hwaits.step [s.cur, pthread] [] hcur (by simp [Sched.after, Sched.wake]) hsame ?_
    have hlt := (s.tcb pthread).ticks.toNat_lt
    simp [Sched.ticksOf, hkeep, after_ticks henabled henabled.1, Action.wakes]
    omega
  | start thread prio =>
    exact hwaits.step [s.cur] [thread] hcur rfl hsame (by simp [Sched.ticksOf, hkeep])
  | exit threadOver =>
    have hlist := List.erase_of_not_mem (h.not_ready (.inr (.inr henabled.2)))
    exact hwaits.step [s.cur] [] hcur (by simp [Sched.after, Sched.remove, hlist]) hsame
      (by simp [Sched.ticksOf, hkeep])
  | setIntr status =>
    exact hwaits.step [s.cur] [] hcur (by simp [Sched.after]) hsame (by simp [Sched.ticksOf, hkeep])

theorem SchedInv.follow_waits {actions : List Action} : ∀ {s n}, SchedInv s → s.Waits t n →
    (system.follow IdleBlocks actions s).isSome →
    n + 256 * actions.countP (·.wakes) ≤ actions.count .timer →
    ∃ pre mid, pre <+: actions ∧ system.follow IdleBlocks pre s = some mid ∧ mid.cur = t := by
  induction actions with
  | nil =>
    intro s n _ ⟨ahead, _, hqueue, hticks⟩ _ hn
    cases ahead with
    | nil => exact ⟨[], s, List.prefix_rfl, rfl, (List.cons.inj hqueue).1⟩
    | cons => simp [Sched.ticksOf] at hticks hn; omega
  | cons a rest ih =>
    intro s n h hwaits hfollow hn
    by_cases hcur : s.cur = t
    · exact ⟨[], s, List.nil_prefix, rfl, hcur⟩
    simp only [System.follow] at hfollow
    split at hfollow
    · rename_i hboth
      have hexec : system.exec a s = .done () (s.after a) := h.exec_eq hboth.1 hboth.2
      rw [hexec] at hfollow
      rw [← List.singleton_append, List.countP_append, List.count_append] at hn
      obtain ⟨m, hwaits, hm⟩ := h.after_waits hboth.1 hwaits hcur
      obtain ⟨pre, mid, hpre, hmid, hrun⟩ :=
        ih (h.after_inv hboth.1 hboth.2) hwaits hfollow (by omega)
      exact ⟨a :: pre, mid, by simpa using hpre, by simp [System.follow, hboth, hexec, hmid], hrun⟩
    · simp at hfollow

end

/-- A ready thread gets the processor in every sequence of actions with enough timer interrupts: as
many as the ticks of the running thread and of those in front of it last for, and 256 more for each
thread that is woken up meanwhile, since `thread_unblock` puts it in front. -/
theorem runs_within {start : Sched} {actions : List Action} {ahead behind : List Nat}
    (hboot : Booted start) (hrun : system.Run IdleBlocks start s)
    (hready : s.readyList = ahead ++ t :: behind)
    (hfollow : (system.follow IdleBlocks actions s).isSome)
    (hticks : s.ticksOf (s.cur :: ahead) + 256 * actions.countP (·.wakes) ≤ actions.count .timer) :
    ∃ pre mid, pre <+: actions ∧ system.follow IdleBlocks pre s = some mid ∧ mid.cur = t := by
  have h : SchedInv s := System.Run.invariant (fun s a h henabled hidle =>
    (wp_of_done (h.exec_eq henabled hidle)).2 (h.after_inv henabled hidle)) hrun (booted_inv hboot)
  exact h.follow_waits ⟨s.cur :: ahead, behind, by rw [hready]; rfl, le_rfl⟩ hfollow hticks

/-- After 32 timer interrupts the main thread has been preempted for `init`. -/
theorem runs_within_three : ∃ pre mid, pre <+: .setIntr true :: List.replicate 32 .timer ∧
    system.follow IdleBlocks pre Sched.three = some mid ∧ mid.cur = 0xc0100000 := by
  have hlist : Sched.three.readyList = [] ++ 0xc0100000 :: [0xc0101000] := by decide
  exact runs_within three_booted .refl hlist (by decide +kernel) (by decide +kernel)

end LosKernel.Thread
