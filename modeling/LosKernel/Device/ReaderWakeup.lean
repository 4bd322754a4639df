import LosKernel.Device.IoQueue

/-!
# Readers of the I/O queue that sleep

`ioq_getchar` tests for bytes before it acquires the lock of the queue and goes to sleep once it
has it, so a reader that had to wait can go to sleep on a queue with bytes in it.
`readers_awake_of_run` says that this is the only way, and `reader_sleeps` is a run with two
readers and two bytes.
-/

namespace LosKernel.Device

open Prog

open Thread

namespace IoSys

/-- No thread that `ioq->consumer` records is blocked while there are bytes in the queue. -/
def ReadersAwake (s : IoSys) : Prop :=
  s.queue.head ≠ s.queue.tail → ∀ t, s.queue.consumer = some t → s.lock.sched.status t ≠ .blocked

/-- A reader that has the lock goes to sleep in `ioq_wait` only when the queue is empty. -/
def SleepsOnEmpty (s : IoSys) : Act → Prop
  | .statement => s.point s.cur = .inCall .get .wait → s.queue.head = s.queue.tail
  | _ => True

/-- Nobody is recorded as a sleeping reader while there are bytes in the queue. -/
def NoSleeper (s : IoSys) : Prop := s.queue.head ≠ s.queue.tail → s.queue.consumer = none

variable {s : IoSys} {side : Side} {stage : Stage}

/-- A recorded reader is blocked, so that the two ways to say it agree. -/
theorem Inv.readers_awake_iff (h : Inv s) : ReadersAwake s ↔ NoSleeper s := by
  constructor
  · intro hawake hsome
    refine Option.eq_none_iff_forall_ne_some.2 fun t ht => ?_
    obtain ⟨-, -, -, hblocked⟩ := h.waiting .consumer t ht
    exact hawake hsome t ht hblocked
  · intro hnone hsome t ht
    simp [hnone hsome] at ht

/-- `wakeup` of the producer leaves the reader as it is. -/
theorem woken_producer (s : IoSys) : (s.woken .producer).queue.consumer = s.queue.consumer := by
  unfold woken
  split <;> rfl

theorem woken_consumer (s : IoSys) : (s.woken .consumer).queue.consumer = none := by
  unfold woken
  split
  case h_1 hnone => exact hnone
  case h_2 => rfl

/-- What a part of a call does to the sleeping reader. -/
theorem Inv.after_no_sleeper_iff (h : Inv s) (hnone : NoSleeper s)
    (hpoint : s.point s.cur = .inCall side stage) :
    NoSleeper (s.after side stage) ↔ SleepsOnEmpty s .statement := by
  have hcond : SleepsOnEmpty s .statement ↔
      (side = .get → stage = .wait → s.queue.head = s.queue.tail) := by
    simp [SleepsOnEmpty, hpoint]
  rw [hcond]
  cases stage with
  | test =>
    simp only [after, reduceCtorEq, false_implies, implies_true, iff_true]
    split <;> exact hnone
  | release => simpa [after, NoSleeper] using hnone
  | wait =>
    cases side with
    | get => simp [after, waitHere, NoSleeper, Side.role, IoQueue.setWaiter]
    | put byte => simpa [after, waitHere, NoSleeper, Side.role, IoQueue.setWaiter] using hnone
  | move =>
    simp only [reduceCtorEq, false_implies, implies_true, iff_true]
    cases side with
    | get =>
      -- There was a byte to take, so that no reader slept before.
      intro _
      show (s.took.woken .producer).queue.consumer = none
      rw [woken_producer]
      exact hnone (h.moving _ _ hpoint).2
    | put byte => exact fun _ => woken_consumer _

/-- A step lets a reader sleep on bytes exactly when it does not meet the condition. -/
theorem Inv.exec_no_sleeper (h : Inv s) (hnone : NoSleeper s) {a : Act} (henabled : Enabled s a) :
    wp any (exec a) s fun _ last => NoSleeper last ↔ SleepsOnEmpty s a := by
  cases a with
  | sched a =>
    have hdone := on_sched_eq (h.lock.sema.sched.exec_eq henabled.2.1 henabled.2.2.1)
    exact (wp_of_done hdone).2 (iff_of_true hnone trivial)
  | call side =>
    simp only [exec, call, wp_bind, wp_assert]
    exact ⟨fun _ => iff_of_true hnone trivial, by simp⟩
  | lock =>
    simp only [exec, onLock, wp_zoom]
    exact (wp_of_done h.lock.statement_eq).2 (iff_of_true hnone trivial)
  | statement =>
    obtain ⟨hin, hout⟩ := henabled
    cases hpoint : s.point s.cur with
    | outside => exact absurd hpoint hin
    | inCall side stage =>
      exact (wp_of_done (h.statement_eq hpoint hout)).2 (h.after_no_sleeper_iff hnone hpoint)

/-- As long as readers go to sleep only on an empty queue, no reader sleeps on a queue with bytes in
it, and a step in which one goes to sleep otherwise leads to a state in which one does. -/
theorem readers_awake_of_run {last : IoSys} (hstart : Start s)
    (hrun : system.Run SleepsOnEmpty s last) :
    ReadersAwake last ∧ ∀ a next, system.Enabled last a → system.exec a last = .done () next →
      (ReadersAwake next ↔ SleepsOnEmpty last a) := by
  have hstep : ∀ s a, Inv s ∧ NoSleeper s → system.Enabled s a → SleepsOnEmpty s a →
      wp any (system.exec a) s fun _ last => Inv last ∧ NoSleeper last := by
    intro s a h henabled hcond
    refine wp_mono (wp_and (wp_of_never (h.1.exec_spec henabled))
      (h.1.exec_no_sleeper h.2 henabled)) fun _ _ hlast => ⟨hlast.1, hlast.2.2 hcond⟩
  have hnone : NoSleeper s := fun _ => hstart.consumer
  obtain ⟨hinv, hlast⟩ := System.Run.invariant hstep hrun ⟨hstart.inv, hnone⟩
  refine ⟨hinv.readers_awake_iff.2 hlast, fun a next henabled hdone => ?_⟩
  have hnext : Inv next :=
    wp_any_iff.1 (wp_of_never (hinv.exec_spec henabled)) _ _ hdone
  rw [hnext.readers_awake_iff]
  exact wp_any_iff.1 (hinv.exec_no_sleeper hlast henabled) _ _ hdone

instance (s : IoSys) : (a : Act) → Decidable (SleepsOnEmpty s a)
  | .sched _ | .call _ | .lock | .statement => by
    unfold SleepsOnEmpty
    infer_instance

/-- The main thread sleeps until `init` has stored a byte, which is still there. -/
theorem readers_awake_byte : ∃ last, system.Run SleepsOnEmpty three last ∧
    last.queue.head ≠ last.queue.tail ∧ ReadersAwake last := by
  obtain ⟨last, hrun, hne⟩ := system.exists_run_of_follow SleepsOnEmpty
    (List.flatten [[.call .get, .statement], List.replicate 5 .lock, [.statement,
      .sched (.setIntr false), .call (.put 0x61), .statement, .statement]]) three
    (fun s => s.queue.head ≠ s.queue.tail) (by decide +kernel)
  exact ⟨last, hrun, hne, (readers_awake_of_run three_start hrun).1⟩

/-- The main thread sleeps in `ioq_wait` and `init` waits for the lock when two bytes are stored by
interrupts of the idle thread. The main thread wakes up, releases the lock and takes the first byte;
`init` gets the lock and goes to sleep on the second. -/
theorem reader_sleeps : ∃ last, system.Run (fun _ _ => True) three last ∧ ¬ReadersAwake last := by
  obtain ⟨last, hrun, hne, hconsumer, hstatus⟩ := system.exists_run_of_follow (fun _ _ => True)
    (List.flatten [[.call .get, .statement], List.replicate 5 .lock, [.statement],
      [.sched (.setIntr false), .call .get, .statement, .lock, .lock],
      [.sched (.setIntr false), .call (.put 0x61), .statement, .statement,
        .call (.put 0x62), .statement, .statement, .sched (.block .blocked)],
      [.statement], List.replicate 6 .lock, [.statement, .statement, .sched .yield],
      List.replicate 4 .lock, [.statement]]) three
    (fun s => s.queue.head ≠ s.queue.tail ∧ s.queue.consumer = some 0xc0100000 ∧
      s.lock.sched.status 0xc0100000 = .blocked) (by decide +kernel)
  exact ⟨last, hrun, fun hawake => hawake hne _ hconsumer hstatus⟩

end IoSys

end LosKernel.Device
