import LosKernel.Lib.Ring
import LosKernel.Thread.Lock

/-!
# The I/O queue

After `device/ioqueue.c`: `ioq_getchar` and `ioq_putchar` on one queue, called with interrupts
off. A call is left where it blocks: in `lock_acquire`, and in `ioq_wait`. A point in a call is a
side, with the byte to store, and a stage; within the functions of the lock the points of
`LockSys` say where a thread is.

`stored` and `taken` are the bytes that calls have put into the queue and taken out, in order.
`fifo_of_run` is the main result.
-/

namespace LosKernel.Device

open Prog hiding update
open Function (update update_of_ne update_self)

open Thread

/-- `BUF_SIZE`. -/
def bufSize : Nat := 64

/-- `IoQueue`, but for its lock. -/
structure IoQueue where
  producer : Option Nat
  consumer : Option Nat
  buf : Nat → UInt8
  head : Nat
  tail : Nat

/-- `next_pos`. -/
def nextPos (pos : Nat) : Nat := (pos + 1) % bufSize

/-- A call of `ioq_getchar`, or of `ioq_putchar` with a byte. -/
inductive Side where
  | get
  | put (byte : UInt8)
  deriving DecidableEq, Repr

/-- Who waits: `consumer` or `producer` of a queue. -/
inductive Role where
  | consumer
  | producer
  deriving DecidableEq, Repr

/-- As what a call waits. -/
def Side.role : Side → Role
  | .get => .consumer
  | .put _ => .producer

/-- What a call does next. -/
inductive Stage where
  | test
  | wait
  | release
  | move
  deriving DecidableEq, Repr

/-- Where a thread is. -/
inductive IoPoint where
  | outside
  | inCall (side : Side) (stage : Stage)
  deriving DecidableEq, Repr

/-- The threads with the lock of the queue, the queue, where each thread is, and what has passed
through the queue. -/
structure IoSys where
  lock : LockSys
  queue : IoQueue
  point : Nat → IoPoint
  stored : List UInt8
  taken : List UInt8

/-- The current thread. -/
abbrev IoSys.cur (s : IoSys) : Nat := s.lock.sched.cur

namespace IoQueue

/-- `ioq->consumer` or `ioq->producer`. -/
def waiter (q : IoQueue) : Role → Option Nat
  | .consumer => q.consumer
  | .producer => q.producer

/-- Set `ioq->consumer` or `ioq->producer`. -/
def setWaiter (q : IoQueue) (thread : Option Nat) : Role → IoQueue
  | .consumer => { q with consumer := thread }
  | .producer => { q with producer := thread }

end IoQueue

namespace IoSys

/-- Run a program of the lock. -/
def onLock {α : Type} (m : Prog Stop LockSys α) : Prog Stop IoSys α :=
  zoom IoSys.lock (fun lock s => { s with lock := lock }) m

/-- Run a program of the scheduler. -/
def onSched {α : Type} (m : Thread.Call α) : Prog Stop IoSys α :=
  onLock (LockSys.onSema (SemaState.onSched m))

/-- Thread `me` goes to `point`. -/
def goto (me : Nat) (point : IoPoint) : Prog Stop IoSys Unit :=
  Prog.update fun s => { s with point := update s.point me point }

/-- `ioq_full`. -/
def ioqFull : Prog Stop IoSys Bool := do
  let s ← state
  assert (!s.lock.sched.intr)
  pure (nextPos s.queue.head == s.queue.tail)

/-- `ioq_empty`. -/
def ioqEmpty : Prog Stop IoSys Bool := do
  let s ← state
  assert (!s.lock.sched.intr)
  pure (s.queue.head == s.queue.tail)

/-- `ioq_wait`. -/
def ioqWait (role : Role) : Prog Stop IoSys Unit := do
  let s ← state
  assert (s.queue.waiter role == none)
  Prog.update fun s => { s with queue := s.queue.setWaiter (some s.cur) role }
  onSched (threadBlock .blocked)

/-- `wakeup`. -/
def wakeup (role : Role) : Prog Stop IoSys Unit := do
  let s ← state
  match s.queue.waiter role with
  | none => halt .assertFailed
  | some waiter => do
    onSched (threadUnblock waiter)
    Prog.update fun s => { s with queue := s.queue.setWaiter none role }

/-- The end of `ioq_getchar`. The call is over but for the wake-up. -/
def getMove (me : Nat) : Prog Stop IoSys Unit := do
  Prog.update fun s =>
    { s with taken := s.taken ++ [s.queue.buf s.queue.tail], queue.tail := nextPos s.queue.tail }
  goto me .outside
  let s ← state
  when (s.queue.waiter .producer ≠ none) (wakeup .producer)

/-- The end of `ioq_putchar`. The call is over but for the wake-up. -/
def putMove (me : Nat) (byte : UInt8) : Prog Stop IoSys Unit := do
  Prog.update fun s =>
    { s with
      stored := s.stored ++ [byte]
      queue.buf := update s.queue.buf s.queue.head byte
      queue.head := nextPos s.queue.head }
  goto me .outside
  let s ← state
  when (s.queue.waiter .consumer ≠ none) (wakeup .consumer)

/-- The test of the loop. -/
def loopTest : Side → Prog Stop IoSys Bool
  | .get => ioqEmpty
  | .put _ => ioqFull

/-- The next part of the call in which the current thread is. -/
def statement : Prog Stop IoSys Unit := do
  let s ← state
  let me := s.cur
  match s.point me with
  | .outside => pure ()
  | .inCall side .test => do
    if ← loopTest side then
      goto me (.inCall side .wait)
      onLock (LockSys.exec .acquire)
    else
      goto me (.inCall side .move)
  | .inCall side .wait => do
    goto me (.inCall side .release)
    ioqWait side.role
  | .inCall side .release => do
    goto me (.inCall side .test)
    onLock (LockSys.exec .release)
  | .inCall .get .move => getMove me
  | .inCall (.put byte) .move => putMove me byte

/-- The start of a call. -/
def call (side : Side) : Prog Stop IoSys Unit := do
  let s ← state
  assert (!s.lock.sched.intr)
  goto s.cur (.inCall side .test)

/-- What the threads do: an action of the scheduler, a call, the next statement within
`lock_acquire` or `lock_release`, the next part of a call. -/
inductive Act where
  | sched (a : Action)
  | call (side : Side)
  | lock
  | statement
  deriving DecidableEq, Repr

/-- When an action can be taken. The idle thread does not take bytes, and it stores them only in the
keyboard handler, which calls `ioq_putchar` when the queue is not full. -/
def Enabled (s : IoSys) : Act → Prop
  | .sched a => a.EnabledAmong s.lock.sched (s.point · = .outside)
  | .call side => s.point s.cur = .outside ∧ s.lock.sched.intr = false ∧
      (s.cur = s.lock.sched.idleThread →
        side ≠ .get ∧ nextPos s.queue.head ≠ s.queue.tail)
  | .lock => s.lock.point s.cur ≠ .outside
  | .statement => s.point s.cur ≠ .outside ∧ s.lock.point s.cur = .outside

/-- What an action does. -/
def exec : Act → Prog Stop IoSys Unit
  | .sched a => onSched a.exec
  | .call side => call side
  | .lock => onLock LockSys.statement
  | .statement => statement

/-- The threads and the queue as a system. -/
def system : System Stop IoSys Act := ⟨Enabled, exec⟩

/-- The threads have been started, and `ioqueue_init` has been called. -/
structure Start (s : IoSys) : Prop where
  lock : s.lock.Start
  producer : s.queue.producer = none
  consumer : s.queue.consumer = none
  head : s.queue.head = 0
  tail : s.queue.tail = 0
  outside : ∀ t, s.point t = .outside
  stored : s.stored = []
  taken : s.taken = []

end IoSys

/-! ## The invariant -/

/-- How a thread in a call uses the lock of the queue. -/
def IoPoint.lockUse : IoPoint → LockUse
  | .outside | .inCall _ .move => .out
  | .inCall _ .test => .leaving
  | .inCall _ .wait => .entering
  | .inCall _ .release => .held

/-- The thread exists and runs with interrupts off, now or when it next runs. -/
structure Kept (s : Sched) (t : Nat) : Prop where
  mem : t ∈ s.allList
  off : t = s.cur → s.intr = false
  saved : t ≠ s.cur → (s.tcb t).oldStatus = false

theorem Kept.bystander {s last : Sched} {t : Nat} (h : Kept s t) (hcur : t ≠ s.cur)
    (hby : Bystander s last t) : Kept last t where
  mem := hby.mem
  off := by
    intro hnow
    rcases hby.status with ⟨hne, -⟩ | ⟨-, -, hintr⟩
    · exact absurd hnow hne
    · rw [hintr, h.saved hcur]
  saved := fun _ => hby.oldStatus.trans (h.saved hcur)

namespace IoQueue

variable {q : IoQueue} {stored taken : List UInt8}

/-- The loop of a call goes on. -/
def MustWait (q : IoQueue) : Side → Prop
  | .get => q.head = q.tail
  | .put _ => nextPos q.head = q.tail

instance (q : IoQueue) : (side : Side) → Decidable (q.MustWait side)
  | .get => inferInstanceAs (Decidable (_ = _))
  | .put _ => inferInstanceAs (Decidable (_ = _))

/-- What has been stored is what has been taken, followed by what is in the queue. -/
def Fifo (q : IoQueue) (stored taken : List UInt8) : Prop :=
  ∃ n, n < bufSize ∧ q.tail < bufSize ∧ q.head = (q.tail + n) % bufSize ∧
    stored = taken ++ Ring.items bufSize q.buf q.tail n

/-- A byte is taken from a queue that is not empty. -/
theorem Fifo.take (h : q.Fifo stored taken) (hsome : ¬q.MustWait .get) :
    { q with tail := nextPos q.tail }.Fifo stored (taken ++ [q.buf q.tail]) := by
  obtain ⟨n, hn, htail, hhead, hstored⟩ := h
  have hpos : n ≠ 0 := by
    intro hzero
    refine hsome (hhead.trans ?_)
    exact (Ring.end_eq_tail_iff htail hn).2 hzero
  obtain ⟨m, rfl⟩ := Nat.exists_eq_succ_of_ne_zero hpos
  refine ⟨m, by omega, Nat.mod_lt _ (by decide), ?_, ?_⟩
  · show q.head = ((q.tail + 1) % bufSize + m) % bufSize
    rw [hhead, Nat.mod_add_mod]
    congr 1
    omega
  · rw [hstored, Ring.items_pop htail]
    simp [nextPos]

/-- A byte is stored in a queue that is not full. -/
theorem Fifo.store (h : q.Fifo stored taken) (byte : UInt8) (hroom : ¬q.MustWait (.put byte)) :
    { q with buf := update q.buf q.head byte, head := nextPos q.head }.Fifo
      (stored ++ [byte]) taken := by
  obtain ⟨n, hn, htail, hhead, hstored⟩ := h
  have hnext : n + 1 ≠ bufSize := by
    intro hfull
    refine hroom ?_
    show nextPos q.head = q.tail
    rw [hhead]
    exact (Ring.next_eq_tail_iff htail hn).2 hfull
  refine ⟨n + 1, by omega, htail, ?_, ?_⟩
  · show (q.head + 1) % bufSize = (q.tail + (n + 1)) % bufSize
    rw [hhead, Nat.mod_add_mod, Nat.add_assoc]
  · rw [hstored, hhead, Ring.items_push hn, List.append_assoc]

@[simp] theorem waiter_set_same (q : IoQueue) (thread : Option Nat) (role : Role) :
    (q.setWaiter thread role).waiter role = thread := by
  cases role <;> rfl

theorem waiter_set_ne (q : IoQueue) (thread : Option Nat) {role other : Role} (h : other ≠ role) :
    (q.setWaiter thread role).waiter other = q.waiter other := by
  cases role <;> cases other <;> first | rfl | exact absurd rfl h

theorem Fifo.set_waiter (h : q.Fifo stored taken) (thread : Option Nat) (role : Role) :
    (q.setWaiter thread role).Fifo stored taken := by
  cases role <;> exact h

theorem must_wait_set (q : IoQueue) (thread : Option Nat) (role : Role) (side : Side) :
    (q.setWaiter thread role).MustWait side ↔ q.MustWait side := by
  cases role <;> cases side <;> rfl

end IoQueue

namespace IoSys

/-- The invariant of the queue. -/
structure Inv (s : IoSys) : Prop where
  lock : s.lock.Inv
  calls : s.lock.Calls IoPoint.lockUse s.point
  kept : ∀ t, s.point t ≠ .outside → Kept s.lock.sched t
  saved : ∀ t oldStatus, s.lock.point t = .acqWait oldStatus → oldStatus = false
  idle : ∀ side stage, s.point s.lock.sched.idleThread = .inCall side stage →
    s.cur = s.lock.sched.idleThread ∧ (stage = .test ∨ stage = .move) ∧
      side ≠ .get ∧ ¬s.queue.MustWait side
  waiting : ∀ role t, s.queue.waiter role = some t →
    ∃ side, s.point t = .inCall side .release ∧ side.role = role ∧
      s.lock.sched.status t = .blocked
  moving : ∀ t side, s.point t = .inCall side .move →
    t = s.cur ∧ ¬s.queue.MustWait side
  fifo : s.queue.Fifo s.stored s.taken

variable {s : IoSys} {t : Nat} {last : Sched} {role other : Role} {side : Side} {stage : Stage}

theorem Start.inv (h : Start s) : Inv s where
  lock := h.lock.inv
  calls := h.lock.calls fun t => by rw [h.outside t]; rfl
  kept := fun t ht => absurd (h.outside t) ht
  saved := fun t _ ht => by simp [h.lock.outside t] at ht
  idle := fun _ _ ht => by simp [h.outside] at ht
  waiting := fun role t ht => by cases role <;> simp [IoQueue.waiter, h.producer, h.consumer] at ht
  moving := fun t _ ht => by simp [h.outside t] at ht
  fifo := ⟨0, by decide, by simp [h.tail, bufSize], by simp [h.head, h.tail],
    by simp [h.stored, h.taken, Ring.items]⟩

/-- A thread in a call other than the current one is not the idle thread. -/
theorem Inv.not_idle (h : Inv s) (ht : s.point t ≠ .outside) (hcur : t ≠ s.cur) :
    t ≠ s.lock.sched.idleThread := by
  rintro rfl
  cases hpoint : s.point s.lock.sched.idleThread with
  | outside => exact ht hpoint
  | inCall side stage => exact hcur (h.idle side stage hpoint).1.symm

/-- The threads that wait are blocked, whatever the others do. -/
theorem Inv.still_blocked (h : Inv s) (ht : s.queue.waiter role = some t)
    (hby : t ≠ s.cur → t ≠ s.lock.sched.idleThread → Bystander s.lock.sched last t) :
    last.status t = .blocked := by
  obtain ⟨side, hpoint, -, hblocked⟩ := h.waiting role t ht
  have hcur : t ≠ s.cur := by
    rintro rfl
    have hrun : s.lock.sched.status s.cur = .running := h.lock.sema.sched.cur_running
    simp [hrun] at hblocked
  have hidle := h.not_idle (by simp [hpoint]) hcur
  rcases (hby hcur hidle).status with ⟨-, hsame⟩ | ⟨-, hready, -⟩
  · rw [hsame, hblocked]
  · simp [hblocked] at hready

/-! ## Steps -/

theorem on_sched_eq {α : Type} {m : Thread.Call α} {value : α}
    (h : m s.lock.sched = .done value last) :
    onSched m s = .done value { s with lock.sched := last } := by
  simp [onSched, onLock, LockSys.onSema, SemaState.onSched, zoom, h]

/-- An action of the scheduler. -/
theorem Inv.sched_inv (h : Inv s) {a : Action} (henabled : Enabled s (.sched a)) :
    Inv { s with lock.sched := s.lock.sched.after a } := by
  obtain ⟨hcur, henabled, hblocks, hspares⟩ := henabled
  have hout : s.point s.cur = .outside := by
    rcases hcur with rfl | hcur
    · by_contra hin
      exact absurd henabled (by simp [Action.Enabled, (h.kept _ hin).off rfl])
    · exact hcur
  have hne : ∀ t, s.point t ≠ .outside → t ≠ s.cur := by
    rintro t ht rfl
    exact ht hout
  have hby : ∀ t, s.point t ≠ .outside → Bystander s.lock.sched (s.lock.sched.after a) t := by
    intro t ht
    exact h.lock.sema.sched.after_bystander henabled hblocks (h.kept t ht).mem (hne t ht)
      (h.not_idle ht (hne t ht)) (hspares.spares ht)
  have hlock : LockSys.Enabled s.lock (.sched a) :=
    ⟨.inr (h.calls.out hout rfl).1, henabled, hblocks,
      h.calls.spares_lock (fun _ ht => by rw [ht]; rfl) hspares⟩
  refine ⟨h.lock.sched_inv hlock, h.calls,
    fun t ht => (h.kept t ht).bystander (hne t ht) (hby t ht),
    h.saved, fun side stage ht => ?_, fun role t ht => ?_, fun t side ht => ?_, h.fifo⟩
  · have hidle : s.point s.lock.sched.idleThread = .inCall side stage := by
      simpa [Sched.after_idle_thread] using ht
    have hboth := (h.idle side stage hidle).1
    rw [← hboth, hout] at hidle
    simp at hidle
  · obtain ⟨side, hpoint, hrole, -⟩ := h.waiting role t ht
    exact ⟨side, hpoint, hrole, h.still_blocked ht fun _ _ => hby t (by simp [hpoint])⟩
  · have hnow := (h.moving t side ht).1
    rw [hnow, hout] at ht
    simp at ht

/-- A step of the current thread that leaves the scheduler as it is. -/
theorem Inv.go_inv (h : Inv s) {last : IoSys} {point : IoPoint} (hlock : last.lock.Inv)
    (hsched : last.lock.sched = s.lock.sched)
    (hpoint : last.point = update s.point s.cur point)
    (hcalls : last.lock.Calls IoPoint.lockUse (update s.point s.cur point))
    (hoff : point ≠ .outside → s.lock.sched.intr = false)
    (hsaved : ∀ t oldStatus, last.lock.point t = .acqWait oldStatus →
      s.lock.point t = .acqWait oldStatus)
    (hidle : s.cur = s.lock.sched.idleThread → ∀ side stage, point = .inCall side stage →
      (stage = .test ∨ stage = .move) ∧ side ≠ .get ∧ ¬last.queue.MustWait side)
    (hwaiter : ∀ role, last.queue.waiter role = s.queue.waiter role)
    (hmove : ∀ side, point = .inCall side .move → ¬last.queue.MustWait side)
    (hfifo : last.queue.Fifo last.stored last.taken) : Inv last := by
  have hself : last.point s.cur = point := by rw [hpoint, update_self]
  have hother : ∀ t, t ≠ s.cur → last.point t = s.point t := by
    intro t ht
    rw [hpoint, update_of_ne ht]
  refine ⟨hlock, hpoint ▸ hcalls, fun t ht => ?_, fun t old ht => h.saved t old (hsaved t old ht),
    fun side stage ht => ?_, fun role t ht => ?_, fun t side ht => ?_, hfifo⟩
  · rw [hsched]
    by_cases htc : t = s.cur
    · rw [htc] at ht ⊢
      rw [hself] at ht
      exact ⟨h.lock.sema.sched.curIn, fun _ => hoff ht, fun hne => absurd rfl hne⟩
    · exact h.kept t (by rwa [hother t htc] at ht)
  · rw [hsched] at ht ⊢
    rw [cur, hsched]
    by_cases htc : s.lock.sched.idleThread = s.cur
    · rw [htc, hself] at ht
      exact ⟨htc.symm, hidle htc.symm side stage ht⟩
    · rw [hother _ htc] at ht
      exact absurd (h.idle side stage ht).1.symm htc
  · rw [hwaiter] at ht
    obtain ⟨side, hpt, hrole, hblocked⟩ := h.waiting role t ht
    have htc : t ≠ s.cur := by
      rintro rfl
      have hrun : s.lock.sched.status s.cur = .running := h.lock.sema.sched.cur_running
      simp [hrun] at hblocked
    exact ⟨side, by rw [hother t htc, hpt], hrole, by rw [hsched, hblocked]⟩
  · rw [cur, hsched]
    by_cases htc : t = s.cur
    · rw [htc, hself] at ht
      exact ⟨htc, hmove side ht⟩
    · rw [hother t htc] at ht
      exact absurd (h.moving t side ht).1 htc

/-- A call starts with the test of the queue. -/
theorem Inv.call_inv (h : Inv s) (henabled : Enabled s (.call side)) :
    Inv { s with point := update s.point s.cur (.inCall side .test) } := by
  obtain ⟨hout, hoff, hidle⟩ := henabled
  refine h.go_inv h.lock rfl rfl (h.calls.go (.inl (h.calls.out hout rfl))) (fun _ => hoff)
    (fun _ _ => id) (fun heq side' stage hsame => ?_) (fun _ => rfl)
    (fun side' hsame => by simp at hsame) h.fifo
  obtain ⟨hget, hroom⟩ := hidle heq
  obtain ⟨rfl, rfl⟩ := hsame
  refine ⟨.inl rfl, hget, ?_⟩
  cases side with
  | get => exact absurd rfl hget
  | put byte => exact hroom

/-- A statement of the lock. -/
theorem Inv.lock_inv (h : Inv s) (henabled : Enabled s .lock) :
    Inv { s with lock := s.lock.stepped } := by
  have hin : s.lock.point s.cur ≠ .outside := henabled
  have hnext := h.lock.stepped_inv
  -- A thread that waits for the lock is where the semaphore says.
  have hwaits : ∀ t, (s.lock.stepped.point t).Waits → Kept s.lock.stepped.sched t := by
    intro t ht
    obtain ⟨hmem, -, hold⟩ := hnext.sema.member t ht
    refine ⟨hmem, fun htc => ?_, fun _ => hold⟩
    rw [htc] at ht
    exact hnext.waits_off ht
  have hby : ∀ t, s.point t ≠ .outside → t ≠ s.cur → ¬(s.lock.point t).Waits →
      Bystander s.lock.sched s.lock.stepped.sched t := by
    intro t ht htc hnot
    exact h.lock.stepped_bystander (h.kept t ht).mem htc (h.not_idle ht htc) hnot
  refine ⟨hnext, h.calls.stepped h.lock hin, fun t ht => ?_, fun t old ht => ?_,
    fun side stage ht => ?_, fun role t ht => ?_, fun t side ht => ?_, h.fifo⟩
  · by_cases hnot : (s.lock.stepped.point t).Waits
    · exact hwaits t hnot
    · by_cases htc : t = s.cur
      · rw [htc] at hnot ht ⊢
        obtain ⟨hcur, hintr⟩ := LockSys.stepped_stays hnot
        have hoff := (h.kept _ ht).off rfl
        refine ⟨by rw [s.lock.stepped_threads.1]; exact (h.kept _ ht).mem, fun _ => ?_,
          fun hne => absurd hcur.symm hne⟩
        rcases hintr with hintr | hintr
        · rw [hintr, hoff]
        · exact h.saved _ _ hintr
      · rw [(s.lock.stepped_others htc).1] at hnot
        exact (h.kept t ht).bystander htc (hby t ht htc hnot)
  · by_cases htc : t = s.cur
    · rw [htc] at ht
      rcases LockSys.stepped_waits ht with hsame | hintr
      · exact h.saved _ _ hsame
      · have hpoint : s.point s.cur ≠ .outside :=
          fun hout => hin (h.calls.out hout rfl).1
        rw [hintr]
        exact (h.kept _ hpoint).off rfl
    · exact h.saved t old (by rw [← (s.lock.stepped_others htc).1]; exact ht)
  · rw [s.lock.stepped_threads.2.1] at ht
    have hcur := (h.idle side stage ht).1
    exact absurd hcur (h.lock.not_idle hin)
  · obtain ⟨side, hpoint, hrole, -⟩ := h.waiting role t ht
    refine ⟨side, hpoint, hrole, h.still_blocked ht fun htc _ => hby t (by simp [hpoint]) htc ?_⟩
    simp [(h.calls.held hpoint rfl).1, LockPoint.Waits]
  · obtain ⟨rfl, -⟩ := h.moving t side ht
    exact absurd (h.calls.out ht rfl).1 hin

/-- A call of `lock_acquire` or `lock_release` does not begin where the thread waits. -/
theorem move_saved {s : LockSys} {lock : Lock} {point : LockPoint} {depth t : Nat}
    {oldStatus : Bool} (hpoint : ¬point.Waits)
    (h : (s.move lock point depth).point t = .acqWait oldStatus) :
    s.point t = .acqWait oldStatus := by
  by_cases ht : t = s.sched.cur
  · rw [ht, LockSys.move_point_cur] at h
    exact absurd ⟨oldStatus, h⟩ hpoint
  · rwa [s.move_point_ne _ _ _ ht] at h

section

variable (h : Inv s)

include h

/-- The test failed: the call goes to `lock_acquire`. -/
theorem Inv.acquire_inv (hpoint : s.point s.cur = .inCall side .test)
    (hout : s.lock.point s.cur = .outside) (hwait : s.queue.MustWait side) :
    Inv { s with
      lock := s.lock.move s.lock.lock .acqTest (s.lock.depth s.cur)
      point := update s.point s.cur (.inCall side .wait) } := by
  have hdepth := h.calls.left hpoint rfl hout
  have hidle : s.cur ≠ s.lock.sched.idleThread := by
    intro heq
    rw [heq] at hpoint
    exact (h.idle side .test hpoint).2.2.2 hwait
  exact h.go_inv (h.lock.acquire_inv ⟨hout, hidle⟩ (h.lock.room_to_nest hout hdepth)) rfl rfl
    (h.calls.acquire hdepth rfl) (fun _ => (h.kept _ (by simp [hpoint])).off rfl)
    (fun _ _ => move_saved (by simp [LockPoint.Waits])) (fun heq => absurd heq hidle) (fun _ => rfl)
    (fun side' hsame => by simp at hsame) h.fifo

/-- The test succeeded: the loop of the call is left. -/
theorem Inv.leave_inv (hpoint : s.point s.cur = .inCall side .test)
    (hout : s.lock.point s.cur = .outside) (hgo : ¬s.queue.MustWait side) :
    Inv { s with point := update s.point s.cur (.inCall side .move) } := by
  have hdepth := h.calls.left hpoint rfl hout
  refine h.go_inv h.lock rfl rfl (h.calls.go ⟨hout, hdepth⟩) (fun _ => ?_)
    (fun _ _ => id) (fun heq side' stage hsame => ?_) (fun _ => rfl)
    (fun side' hsame => ?_) h.fifo
  · exact (h.kept _ (by simp [hpoint])).off rfl
  · obtain ⟨rfl, rfl⟩ := hsame
    rw [heq] at hpoint
    obtain ⟨-, -, hget, hroom⟩ := h.idle side .test hpoint
    exact ⟨.inr rfl, hget, hroom⟩
  · simp only [IoPoint.inCall.injEq, and_true] at hsame
    rwa [← hsame]

/-- The woken caller releases the lock and tests again. -/
theorem Inv.release_inv (hpoint : s.point s.cur = .inCall side .release) :
    Inv { s with
      lock := s.lock.move s.lock.lock .relCheck (s.lock.depth s.cur)
      point := update s.point s.cur (.inCall side .test) } := by
  obtain ⟨hout, hdepth⟩ := h.calls.held hpoint rfl
  have hidle : s.cur ≠ s.lock.sched.idleThread := by
    intro heq
    rw [heq] at hpoint
    simpa using (h.idle side .release hpoint).2.1
  exact h.go_inv (h.lock.release_inv ⟨hout, by simp [hdepth]⟩) rfl rfl (h.calls.release hdepth rfl)
    (fun _ => (h.kept _ (by simp [hpoint])).off rfl)
    (fun _ _ => move_saved (by simp [LockPoint.Waits])) (fun heq => absurd heq hidle) (fun _ => rfl)
    (fun side' hsame => by simp at hsame) h.fifo

/-- The byte is moved and the call ends. -/
theorem Inv.move_inv (hpoint : s.point s.cur = .inCall side .move) {last : IoSys}
    (hlock : last.lock = s.lock) (hlast : last.point = update s.point s.cur .outside)
    (hwaiter : ∀ role, last.queue.waiter role = s.queue.waiter role)
    (hfifo : last.queue.Fifo last.stored last.taken) : Inv last := by
  refine h.go_inv (hlock ▸ h.lock) (by rw [hlock]) hlast ?_ (fun hne => absurd rfl hne)
    (by simp [hlock]) (fun _ _ _ hsame => by simp at hsame) hwaiter
    (fun _ hsame => by simp at hsame) hfifo
  rw [hlock]
  exact h.calls.go (h.calls.out hpoint rfl)

/-- The state in which the current thread waits in `ioq_wait`. -/
def waitHere (s : IoSys) (side : Side) : IoSys :=
  { s with
    lock.sched := s.lock.sched.after (.block .blocked)
    queue := s.queue.setWaiter (some s.cur) side.role
    point := update s.point s.cur (.inCall side .release) }

/-- No other thread waits in `ioq_wait`. -/
theorem Inv.no_waiter (hpoint : s.point s.cur = .inCall side .wait)
    (hout : s.lock.point s.cur = .outside) (role : Role) :
    s.lock.depth s.cur = 1 ∧ s.queue.waiter role = none := by
  have hdepth := h.calls.entered hpoint rfl hout
  refine ⟨hdepth, ?_⟩
  cases hwaiter : s.queue.waiter role with
  | none => rfl
  | some t =>
    -- A thread that waits holds the lock, and so does the current one.
    obtain ⟨side', hpt, -⟩ := h.waiting role t hwaiter
    have hpos : 0 < s.lock.depth t := by rw [(h.calls.held hpt rfl).2]; decide
    have heq : t = s.cur := h.lock.exclusive hpos (by omega)
    rw [heq, hpoint] at hpt
    simp at hpt

/-- The caller goes to sleep in `ioq_wait`. -/
theorem Inv.wait_inv (hpoint : s.point s.cur = .inCall side .wait)
    (hout : s.lock.point s.cur = .outside) : Inv (s.waitHere side) := by
  have hdepth := (h.no_waiter hpoint hout side.role).1
  have hidle : s.cur ≠ s.lock.sched.idleThread := by
    intro heq
    rw [heq] at hpoint
    simpa using (h.idle side .wait hpoint).2.1
  have hblocks : IdleBlocks s.lock.sched (.block .blocked) := fun heq => absurd heq hidle
  have hoff := (h.kept _ (by simp [hpoint])).off rfl
  obtain ⟨hcur, hstatus, hold⟩ := h.lock.sema.sched.blocked_cur (.inl rfl) hidle
  have hby : ∀ t, s.point t ≠ .outside → t ≠ s.cur →
      Bystander s.lock.sched (s.lock.sched.after (.block .blocked)) t := by
    intro t ht htc
    exact h.lock.sema.sched.after_bystander (.inl rfl) hblocks (h.kept t ht).mem htc
      (h.not_idle ht htc) trivial
  have hother : ∀ t, t ≠ s.cur → (s.waitHere side).point t = s.point t :=
    fun t ht => update_of_ne ht _ _
  have hself : (s.waitHere side).point s.cur = .inCall side .release :=
    update_self _ _ _
  refine ⟨h.lock.sched_inv ⟨.inr hout, .inl rfl, hblocks, trivial⟩, h.calls.go ⟨hout, hdepth⟩,
    fun t ht => ?_, h.saved, fun side' stage ht => ?_, fun role t ht => ?_, fun t side' ht => ?_,
    h.fifo.set_waiter _ _⟩
  · by_cases htc : t = s.cur
    · rw [htc]
      exact ⟨h.lock.sema.sched.curIn, fun hnow => absurd hnow hcur, fun _ => hold.trans hoff⟩
    · rw [hother t htc] at ht
      exact (h.kept t ht).bystander htc (hby t ht htc)
  · have hsame : s.point s.lock.sched.idleThread = .inCall side' stage := by
      rw [← hother _ hidle.symm]
      exact ht
    exact absurd (h.idle side' stage hsame).1 hidle
  · by_cases hrole : role = side.role
    · rw [hrole] at ht
      have htc : s.cur = t := by simpa [waitHere] using ht
      subst htc
      exact ⟨side, hself, hrole.symm, hstatus⟩
    · have hwaiter : s.queue.waiter role = some t := by
        rw [← IoQueue.waiter_set_ne _ _ hrole]
        exact ht
      simp [(h.no_waiter hpoint hout role).2] at hwaiter
  · by_cases htc : t = s.cur
    · rw [htc, hself] at ht
      simp at ht
    · rw [hother t htc] at ht
      exact absurd (h.moving t side' ht).1 htc

/-- The state after `wakeup`, if a thread waits. -/
def woken (s : IoSys) (role : Role) : IoSys :=
  match s.queue.waiter role with
  | none => s
  | some t =>
    { s with lock.sched := s.lock.sched.wake t, queue := s.queue.setWaiter none role }

theorem Inv.one_waiter {u : Nat} (ht : s.queue.waiter role = some t)
    (hu : s.queue.waiter other = some u) : other = role ∧ u = t := by
  have hheld : ∀ role t, s.queue.waiter role = some t → 0 < s.lock.depth t := by
    intro role t ht
    obtain ⟨side, hpoint, -⟩ := h.waiting role t ht
    rw [(h.calls.held hpoint rfl).2]
    decide
  obtain rfl := h.lock.exclusive (hheld other u hu) (hheld role t ht)
  obtain ⟨side, hpoint, hrole, -⟩ := h.waiting role u ht
  obtain ⟨side', hpoint', hrole', -⟩ := h.waiting other u hu
  rw [hpoint, IoPoint.inCall.injEq] at hpoint'
  exact ⟨by rw [← hrole, ← hrole', hpoint'.1], rfl⟩

theorem Inv.waiter_enabled (ht : s.queue.waiter role = some t) :
    (Action.unblock t).Enabled s.lock.sched ∧ t ≠ s.cur ∧
      s.lock.point t = .outside := by
  obtain ⟨side, hpoint, -, hblocked⟩ := h.waiting role t ht
  have hcur : t ≠ s.cur := by
    rintro rfl
    have hrun : s.lock.sched.status s.cur = .running := h.lock.sema.sched.cur_running
    simp [hrun] at hblocked
  have hin : s.point t ≠ .outside := by simp [hpoint]
  exact ⟨⟨(h.kept t hin).mem, h.not_idle hin hcur, .inl hblocked⟩, hcur,
    (h.calls.held hpoint rfl).1⟩

/-- The waiter on the other side is woken up. -/
theorem Inv.woken_inv (hout : s.lock.point s.cur = .outside) (role : Role) :
    Inv (s.woken role) := by
  unfold woken
  split
  case h_1 => exact h
  case h_2 t ht =>
    obtain ⟨henabled, hcur, hlock⟩ := h.waiter_enabled ht
    have hother : ∀ u, u ≠ t → (s.lock.sched.wake t).tcb u = s.lock.sched.tcb u :=
      fun u hu => s.lock.sched.wake_tcb_ne hu
    have hold : ∀ u, ((s.lock.sched.wake t).tcb u).oldStatus = (s.lock.sched.tcb u).oldStatus := by
      intro u
      by_cases hut : u = t
      · simp [hut, Sched.wake]
      · rw [hother u hut]
    refine ⟨h.lock.sched_inv ⟨.inr hout, henabled, trivial, hlock⟩, h.calls,
      fun u hu => ?_, h.saved,
      fun side stage hu => ?_, fun other u hu => ?_, fun u side hu => ?_, h.fifo.set_waiter _ _⟩
    · obtain ⟨hmem, hoff, hsaved⟩ := h.kept u hu
      exact ⟨hmem, hoff, fun hne => (hold u).trans (hsaved hne)⟩
    · rw [IoQueue.must_wait_set]
      exact h.idle side stage hu
    · by_cases hrole : other = role
      · rw [hrole] at hu
        simp at hu
      · rw [IoQueue.waiter_set_ne _ _ hrole] at hu
        exact absurd (h.one_waiter ht hu).1 hrole
    · rw [IoQueue.must_wait_set]
      exact h.moving u side hu

theorem Inv.wakeup_eq (role : Role) :
    when (s.queue.waiter role ≠ none) (wakeup role) s = .done () (s.woken role) := by
  cases hwaiter : s.queue.waiter role with
  | none => simp [when, woken, hwaiter, ret]
  | some t =>
    have hblocking := blocking_of_unblock (h.waiter_enabled hwaiter).1
    have hunblock := on_sched_eq (h.lock.sema.sched.thread_unblock_eq hblocking)
    simp [when, wakeup, bind_run, hwaiter, hunblock, woken]

/-! ## Runs -/

/-- The current thread has taken a byte. -/
def took (s : IoSys) : IoSys :=
  { s with
    taken := s.taken ++ [s.queue.buf s.queue.tail]
    queue.tail := nextPos s.queue.tail
    point := update s.point s.cur .outside }

/-- The current thread has stored a byte. -/
def put (s : IoSys) (byte : UInt8) : IoSys :=
  { s with
    stored := s.stored ++ [byte]
    queue.buf := update s.queue.buf s.queue.head byte
    queue.head := nextPos s.queue.head
    point := update s.point s.cur .outside }

/-- The state after the part of a call at a stage. -/
def after (s : IoSys) : Side → Stage → IoSys
  | side, .test =>
    if s.queue.MustWait side then
      { s with
        lock := s.lock.move s.lock.lock .acqTest (s.lock.depth s.cur)
        point := update s.point s.cur (.inCall side .wait) }
    else { s with point := update s.point s.cur (.inCall side .move) }
  | side, .wait => s.waitHere side
  | side, .release =>
    { s with
      lock := s.lock.move s.lock.lock .relCheck (s.lock.depth s.cur)
      point := update s.point s.cur (.inCall side .test) }
  | .get, .move => s.took.woken .producer
  | .put byte, .move => (s.put byte).woken .consumer

/-- `ioq_getchar` takes a byte. -/
theorem Inv.took_inv (hpoint : s.point s.cur = .inCall .get .move) : Inv s.took :=
  h.move_inv hpoint rfl rfl (fun role => by cases role <;> rfl)
    (h.fifo.take (h.moving _ _ hpoint).2)

/-- `ioq_putchar` stores a byte. -/
theorem Inv.put_inv {byte : UInt8} (hpoint : s.point s.cur = .inCall (.put byte) .move) :
    Inv (s.put byte) :=
  h.move_inv hpoint rfl rfl (fun role => by cases role <;> rfl)
    (h.fifo.store byte (h.moving _ _ hpoint).2)

end

theorem loop_test_eq (hoff : s.lock.sched.intr = false) (side : Side) :
    loopTest side s = .done (decide (s.queue.MustWait side)) s := by
  cases side with
  | get =>
    simp [loopTest, ioqEmpty, bind_run, hoff]
    rfl
  | put byte =>
    simp [loopTest, ioqFull, bind_run, hoff]
    rfl

/-- No statement of a call stops. -/
theorem Inv.statement_eq (h : Inv s) (hpoint : s.point s.cur = .inCall side stage)
    (hout : s.lock.point s.cur = .outside) :
    statement s = .done () (s.after side stage) := by
  have hoff := (h.kept _ (by simp [hpoint])).off rfl
  simp only [statement, bind_run, state_run, hpoint]
  cases stage with
  | test =>
    simp only [bind_run, loop_test_eq hoff side, after]
    by_cases hwait : s.queue.MustWait side
    · simp [hwait, goto, onLock, bind_run, zoom, LockSys.exec_acquire_eq]
    · simp [hwait, goto]
  | wait =>
    have hnone := (h.no_waiter hpoint hout side.role).2
    have hidle : s.cur ≠ s.lock.sched.idleThread := by
      intro heq
      rw [heq] at hpoint
      simpa using (h.idle side .wait hpoint).2.1
    have hblock := h.lock.sema.sched.thread_block_eq blocking_blocked fun heq => absurd heq hidle
    simp only [goto, ioqWait, bind_run, update_run, state_run, hnone]
    exact on_sched_eq hblock
  | release => simp [goto, onLock, bind_run, zoom, LockSys.exec_release_eq, after]
  | move =>
    cases side with
    | get => exact (h.took_inv hpoint).wakeup_eq .producer
    | put byte => exact (h.put_inv hpoint).wakeup_eq .consumer

/-- Every part of a call keeps the invariant. -/
theorem Inv.after_inv (h : Inv s) (hpoint : s.point s.cur = .inCall side stage)
    (hout : s.lock.point s.cur = .outside) : Inv (s.after side stage) := by
  cases stage with
  | test =>
    simp only [after]
    split
    case isTrue hwait => exact h.acquire_inv hpoint hout hwait
    case isFalse hgo => exact h.leave_inv hpoint hout hgo
  | wait => exact h.wait_inv hpoint hout
  | release => exact h.release_inv hpoint
  | move =>
    cases side with
    | get => exact (h.took_inv hpoint).woken_inv hout .producer
    | put byte => exact (h.put_inv hpoint).woken_inv hout .consumer

/-- Every statement of a call keeps the invariant. -/
theorem Inv.statement_spec (h : Inv s) (henabled : Enabled s .statement) :
    wp never statement s fun _ last => Inv last := by
  obtain ⟨hin, hout⟩ := henabled
  cases hpoint : s.point s.cur with
  | outside => exact absurd hpoint hin
  | inCall side stage =>
    exact (wp_of_done (h.statement_eq hpoint hout)).2 (h.after_inv hpoint hout)

/-- Every action succeeds and keeps the invariant. -/
theorem Inv.exec_spec (h : Inv s) {a : Act} (henabled : Enabled s a) :
    wp never (exec a) s fun _ last => Inv last := by
  cases a with
  | sched a =>
    have hdone := h.lock.sema.sched.exec_eq henabled.2.1 henabled.2.2.1
    exact (wp_of_done (on_sched_eq hdone)).2 (h.sched_inv henabled)
  | call side =>
    have hcall := h.call_inv henabled
    simp only [exec, call, wp_bind, wp_state, wp_assert, henabled.2.1]
    exact ⟨fun _ => hcall, by simp⟩
  | lock =>
    simp only [exec, onLock, wp_zoom]
    exact (wp_of_done h.lock.statement_eq).2 (h.lock_inv henabled)
  | statement => exact h.statement_spec henabled

/-- What the queue promises in a state: bytes come out in the order in which they were put in, the
queue holds at most `BUF_SIZE - 1` of them, the positions are in range, and no `ASSERT` fails. -/
structure FifoOk (s : IoSys) : Prop where
  order : s.taken <+: s.stored
  room : s.stored.length ≤ s.taken.length + (bufSize - 1)
  head : s.queue.head < bufSize
  tail : s.queue.tail < bufSize
  returns : ∀ a, Enabled s a → ∃ last, exec a s = .done () last

theorem Inv.fifo_ok (h : Inv s) : FifoOk s := by
  obtain ⟨n, hn, htail, hhead, hstored⟩ := h.fifo
  refine ⟨hstored ▸ List.prefix_append _ _, ?_, ?_, htail, fun a henabled => ?_⟩
  · rw [hstored, List.length_append, Ring.length_items]
    omega
  · rw [hhead]
    exact Nat.mod_lt _ (by decide)
  · obtain ⟨_, last, hdone, -⟩ := wp_never_iff.1 (h.exec_spec henabled)
    exact ⟨last, hdone⟩

/-- In every state that threads using a queue reach, the queue keeps its promises. -/
theorem fifo_of_run {last : IoSys} (hstart : Start s)
    (hrun : system.Run (fun _ _ => True) s last) : FifoOk last := by
  have hinv := System.Run.invariant (fun _ _ h henabled _ =>
    wp_of_never (h.exec_spec henabled)) hrun hstart.inv
  exact hinv.fifo_ok

instance (s : IoSys) (a : Act) : Decidable (system.Enabled s a) := by
  cases a <;> dsimp only [system, Enabled] <;> infer_instance

/-- An empty queue after the start of the threads. -/
def three : IoSys := ⟨LockSys.three, ⟨none, none, fun _ => 0, 0, 0⟩, fun _ => .outside, [], []⟩

theorem three_start : Start three :=
  ⟨LockSys.three_start, rfl, rfl, rfl, rfl, fun _ => rfl, rfl, rfl⟩

/-- The main thread waits for a byte, `init` stores two, and the main thread takes the first. -/
theorem fifo_wakes : ∃ last, system.Run (fun _ _ => True) three last ∧
    last.taken = [0x61] ∧ last.stored = [0x61, 0x62] ∧ FifoOk last := by
  obtain ⟨last, hrun, htaken, hstored⟩ := system.exists_run_of_follow (fun _ _ => True)
    (List.flatten [[.call .get, .statement], List.replicate 5 .lock, [.statement,
      .sched (.setIntr false), .call (.put 0x61), .statement, .statement,
      .call (.put 0x62), .statement, .statement, .sched .yield, .statement],
      List.replicate 6 .lock, [.statement, .statement]]) three
    (fun s => s.taken = [0x61] ∧ s.stored = [0x61, 0x62]) (by decide +kernel)
  exact ⟨last, hrun, htaken, hstored, fifo_of_run three_start hrun⟩

end IoSys

end LosKernel.Device
