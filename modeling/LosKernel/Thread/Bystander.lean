import LosKernel.Thread.SchedInv

/-!
# Threads that take no part in an operation

An action of the scheduler concerns the current thread, and `thread_unblock` and `thread_exit` one
more. `Bystander s last t` says what happens to any other thread `t`: it stays as it is, or it was
ready and is now the current thread. `SchedInv.after_bystander` shows this for every action.
-/

namespace LosKernel.Thread

variable {s mid last : Sched} {t : Nat} {a : Action} {out : Nat → Prop}

/-- `t` is as it was, or it has been picked from the ready list. -/
structure Bystander (s last : Sched) (t : Nat) : Prop where
  mem : t ∈ last.allList
  oldStatus : (last.tcb t).oldStatus = (s.tcb t).oldStatus
  status : t ≠ last.cur ∧ last.status t = s.status t ∨
    t = last.cur ∧ s.status t = .ready ∧ last.intr = (s.tcb t).oldStatus

/-- A thread whose control block has not changed before `schedule`. -/
theorem Paused.dispatch_bystander (h : Paused mid) (hin : t ∈ mid.allList)
    (hidle : t ≠ mid.idleThread) (htcb : mid.tcb t = s.tcb t) : Bystander s mid.dispatch t := by
  have hstatus : mid.status t = s.status t := by rw [Sched.status, Sched.status, htcb]
  refine ⟨hin, by rw [mid.dispatch_old_status, htcb], ?_⟩
  by_cases hnext : t = mid.next
  · obtain ⟨-, ⟨-, hready⟩ | ⟨-, heq, -⟩⟩ := h.next_cases
    · refine .inr ⟨hnext, ?_, ?_⟩
      · rw [← hstatus, hnext, hready]
      · rw [mid.dispatch_intr, ← hnext, htcb]
    · exact absurd (hnext.trans heq) hidle
  · exact .inl ⟨hnext, by rw [mid.dispatch_status_ne hnext, hstatus]⟩

/-- A thread whose control block an operation that does not switch leaves alone. -/
theorem Bystander.of_tcb (hcur : t ≠ last.cur) (hin : t ∈ last.allList)
    (htcb : last.tcb t = s.tcb t) : Bystander s last t :=
  ⟨hin, by rw [htcb], .inl ⟨hcur, by rw [Sched.status, Sched.status, htcb]⟩⟩

/-- `t` is not the thread that `thread_unblock` or `thread_exit` is about. -/
def Action.Spares (t : Nat) : Action → Prop
  | .unblock pthread => pthread ≠ t
  | .exit threadOver => threadOver ≠ t
  | _ => True

/-- The thread that `thread_unblock` or `thread_exit` is about is one of those in `out`. -/
def Action.Among (out : Nat → Prop) : Action → Prop
  | .unblock t | .exit t => out t
  | _ => True

instance (out : Nat → Prop) [DecidablePred out] : (a : Action) → Decidable (a.Among out)
  | .timer | .block _ | .unblock _ | .yield | .start _ _ | .exit _ | .setIntr _ => by
    unfold Action.Among
    infer_instance

theorem Action.Among.spares (h : a.Among out) (ht : ¬out t) : a.Spares t := by
  cases a with
  | unblock p | exit p => exact fun heq => ht (heq ▸ h)
  | timer | block | yield | start | setIntr => exact trivial

/-- When the scheduler can act while only the threads in `out` are in no call. The timer interrupts
any code; the other actions are the code of the current thread. -/
def Action.EnabledAmong (s : Sched) (out : Nat → Prop) (a : Action) : Prop :=
  (a = .timer ∨ out s.cur) ∧ a.Enabled s ∧ IdleBlocks s a ∧ a.Among out

instance (s : Sched) (out : Nat → Prop) [DecidablePred out] (a : Action) :
    Decidable (a.EnabledAmong s out) :=
  inferInstanceAs (Decidable ((_ = _ ∨ _) ∧ _ ∧ _ ∧ _))

/-- What an action does to a thread that is not the current one. -/
theorem SchedInv.after_bystander (h : SchedInv s) (henabled : a.Enabled s)
    (hblocks : IdleBlocks s a) (hin : t ∈ s.allList) (hcur : t ≠ s.cur) (hidle : t ≠ s.idleThread)
    (hspares : a.Spares t) : Bystander s (s.after a) t := by
  cases a with
  | timer =>
    simp only [Sched.after]
    split
    · exact h.preempt_paused.dispatch_bystander hin hidle (Sched.modify_tcb_ne _ _ hcur)
    · exact .of_tcb hcur hin (Sched.modify_tcb_ne _ _ hcur)
  | block stat =>
    exact (h.block_paused henabled hblocks).dispatch_bystander hin hidle
      (Sched.modify_tcb_ne _ _ hcur)
  | unblock pthread => exact .of_tcb hcur hin (s.wake_tcb_ne hspares.symm)
  | yield => exact h.yield_paused.dispatch_bystander hin hidle (Sched.modify_tcb_ne _ _ hcur)
  | start thread prio =>
    have hne : t ≠ thread := fun heq => henabled.1 (heq ▸ hin)
    exact .of_tcb hcur (List.mem_append_left _ hin) (s.add_tcb_ne prio hne)
  | exit threadOver =>
    have hne : t ≠ threadOver := hspares.symm
    exact .of_tcb hcur (h.allNodup.mem_erase_iff.2 ⟨hne, hin⟩) (s.remove_tcb_ne hne)
  | setIntr status => exact .of_tcb hcur hin rfl

@[simp] theorem Sched.after_idle_thread (s : Sched) (a : Action) :
    (s.after a).idleThread = s.idleThread := by
  cases a with
  | timer =>
    simp only [Sched.after]
    split <;> rfl
  | block | unblock | yield | start | exit | setIntr => rfl

/-- A thread that blocks itself is not picked again. -/
theorem SchedInv.blocked_cur {stat : TaskStatus} (h : SchedInv s) (hstat : Blocking stat)
    (hidle : s.cur ≠ s.idleThread) : s.cur ≠ (s.after (.block stat)).cur ∧
      (s.after (.block stat)).status s.cur = stat ∧
      ((s.after (.block stat)).tcb s.cur).oldStatus = s.intr := by
  have hself : (s.blockCur stat).status s.cur = stat := by simp [Sched.blockCur]
  have hpaused := h.block_paused hstat fun heq => absurd heq hidle
  have hnext : s.cur ≠ (s.blockCur stat).next := by
    intro heq
    obtain ⟨-, ⟨-, hready⟩ | ⟨-, hnext, -⟩⟩ := hpaused.next_cases
    · rw [← heq, hself] at hready
      simp [hready, Blocking] at hstat
    · exact hidle (heq.trans hnext)
  refine ⟨hnext, ?_, ?_⟩
  · show (s.blockCur stat).dispatch.status s.cur = stat
    rw [Sched.dispatch_status_ne _ hnext, hself]
  · show ((s.blockCur stat).dispatch.tcb s.cur).oldStatus = s.intr
    rw [Sched.dispatch_old_status]
    simp [Sched.blockCur]

/-- Threads leave the list only by `thread_exit`. -/
theorem SchedInv.after_mem (h : SchedInv s) (hin : t ∈ s.allList) (hexit : a ≠ .exit t) :
    t ∈ (s.after a).allList := by
  cases a with
  | timer =>
    simp only [Sched.after]
    split <;> exact hin
  | start thread prio => exact List.mem_append_left _ hin
  | exit threadOver =>
    have hne : t ≠ threadOver := fun heq => hexit (by rw [heq])
    exact h.allNodup.mem_erase_iff.2 ⟨hne, hin⟩
  | block | unblock | yield | setIntr => exact hin

/-- Only `thread_start` puts threads on the list. -/
theorem SchedInv.mem_of_after_mem (h : SchedInv s) (hin : t ∈ (s.after a).allList)
    (hstart : ∀ prio, a ≠ .start t prio) : t ∈ s.allList := by
  cases a with
  | timer =>
    simp only [Sched.after] at hin
    split at hin <;> exact hin
  | start thread prio =>
    rcases List.mem_append.1 hin with hin | hin
    · exact hin
    · obtain rfl := List.mem_singleton.1 hin
      exact absurd rfl (hstart prio)
  | exit threadOver => exact (h.allNodup.mem_erase_iff.1 hin).2
  | block | unblock | yield | setIntr => exact hin

@[simp] theorem Sched.after_main_thread (s : Sched) (a : Action) :
    (s.after a).mainThread = s.mainThread := by
  cases a with
  | timer =>
    simp only [Sched.after]
    split <;> rfl
  | block | unblock | yield | start | exit | setIntr => rfl

end LosKernel.Thread
