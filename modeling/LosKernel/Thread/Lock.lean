import LosKernel.Thread.Semaphore

/-!
# Locks

After `lock_acquire` and `lock_release` of `thread/sync.c`. A timer interrupt can come between any
two statements: the model has one point for each, and `statement` executes the one at which the
current thread is. `sema_down` and `sema_up` run with interrupts off; `sema_down` is left where it
blocks.

`depth` counts the calls of `lock_acquire` of a thread that have set `holder_repeat_nr` less the
calls of `lock_release` that have taken it back; the code compares `holder_repeat_nr` with 0 and 1
in its place.
-/

namespace LosKernel.Thread

open Prog hiding update
open Function (update update_of_ne update_self)
open SemaState (onSched up)

/-- `Lock`. -/
structure Lock where
  holder : Option Nat
  semaphore : Semaphore
  holderRepeatNr : UInt32

/-- `lock_init`. -/
def lockInit : Lock := ⟨none, ⟨1, []⟩, 0⟩

/-- The statement that a thread executes next. -/
inductive LockPoint where
  | outside
  | acqTest
  | acqDown
  | acqWait (oldStatus : Bool)
  | acqHolder
  | acqCheck
  | acqFirst
  | acqAgain
  | relCheck
  | relTest
  | relAgain
  | relOne
  | relHolder
  | relClear
  | relUp
  deriving DecidableEq, Repr

/-- The threads, one lock, and where each thread is in its functions. -/
structure LockSys where
  sched : Sched
  lock : Lock
  point : Nat → LockPoint
  depth : Nat → Nat

/-- The current thread. -/
abbrev LockSys.cur (s : LockSys) : Nat := s.sched.cur

namespace LockSys

/-- The semaphore of the lock. -/
def sema (s : LockSys) : SemaState := ⟨s.sched, s.lock.semaphore⟩

/-- Run a program of the semaphore. -/
def onSema {α : Type} (m : Prog Stop SemaState α) : Prog Stop LockSys α :=
  zoom sema (fun base s => { s with sched := base.sched, lock.semaphore := base.sema }) m

/-- Thread `me` goes to `point`. -/
def goto (me : Nat) (point : LockPoint) : Prog Stop LockSys Unit :=
  Prog.update fun s => { s with point := update s.point me point }

/-- Change the nesting depth of a thread. -/
def nest (me : Nat) (change : Nat → Nat) : Prog Stop LockSys Unit :=
  Prog.update fun s => { s with depth := update s.depth me (change (s.depth me)) }

/-- The loop of `sema_down` up to where it blocks, or the loop and the rest of `sema_down`. -/
def semaDownLoop (me : Nat) (oldStatus : Bool) : Prog Stop LockSys Unit := do
  goto me (.acqWait oldStatus)
  let taken ← onSema semaTry
  when (taken = true) do
    onSema (onSched (intrSetStatus oldStatus))
    goto me .acqHolder

/-- Execute the statement at which the current thread is. -/
def statement : Prog Stop LockSys Unit := do
  let s ← state
  let me := s.cur
  match s.point me with
  | .outside => pure ()
  -- lock_acquire
  | .acqTest => goto me (if s.lock.holder ≠ some me then .acqDown else .acqAgain)
  | .acqDown => do
    let oldStatus ← onSema (onSched intrDisable)
    semaDownLoop me oldStatus
  | .acqWait oldStatus => semaDownLoop me oldStatus
  | .acqHolder => do
    Prog.update fun s => { s with lock.holder := some me }
    goto me .acqCheck
  | .acqCheck => do
    assert (s.lock.holderRepeatNr = 0)
    goto me .acqFirst
  | .acqFirst => do
    Prog.update fun s => { s with lock.holderRepeatNr := 1 }
    nest me (· + 1)
    goto me .outside
  | .acqAgain => do
    Prog.update fun s => { s with lock.holderRepeatNr := s.lock.holderRepeatNr + 1 }
    nest me (· + 1)
    goto me .outside
  -- lock_release
  | .relCheck => do
    assert (s.lock.holder = some me)
    goto me .relTest
  | .relTest => goto me (if s.lock.holderRepeatNr > 1 then .relAgain else .relOne)
  | .relAgain => do
    Prog.update fun s => { s with lock.holderRepeatNr := s.lock.holderRepeatNr - 1 }
    nest me (· - 1)
    goto me .outside
  | .relOne => do
    assert (s.lock.holderRepeatNr = 1)
    goto me .relHolder
  | .relHolder => do
    Prog.update fun s => { s with lock.holder := none }
    goto me .relClear
  | .relClear => do
    Prog.update fun s => { s with lock.holderRepeatNr := 0 }
    nest me (· - 1)
    goto me .relUp
  | .relUp => do
    onSema semaUp
    goto me .outside

/-- What the threads do: an action of the scheduler, a call of `lock_acquire` or `lock_release`, the
next statement of such a call. -/
inductive Act where
  | sched (a : Action)
  | acquire
  | release
  | statement
  deriving DecidableEq, Repr

/-- The thread that an action of the scheduler is about does not wait for the lock, and a thread
that ends does not hold it. -/
def SparesLock (s : LockSys) : Action → Prop
  | .unblock t => s.point t = .outside
  | .exit t => s.point t = .outside ∧ s.depth t = 0
  | _ => True

/-- When an action can be taken. The timer interrupts any code; the other actions are the code of
the current thread. A thread releases only what it holds, and the idle thread uses no lock. -/
def Enabled (s : LockSys) : Act → Prop
  | .sched a => (a = .timer ∨ s.point s.cur = .outside) ∧ a.Enabled s.sched ∧
      IdleBlocks s.sched a ∧ s.SparesLock a
  | .acquire => s.point s.cur = .outside ∧ s.cur ≠ s.sched.idleThread
  | .release => s.point s.cur = .outside ∧ 0 < s.depth s.cur
  | .statement => s.point s.cur ≠ .outside

/-- What an action does. -/
def exec : Act → Prog Stop LockSys Unit
  | .sched a => onSema (onSched a.exec)
  | .acquire => do
    let s ← state
    goto s.cur .acqTest
  | .release => do
    let s ← state
    goto s.cur .relCheck
  | .statement => statement

/-- The threads and the lock as a system. -/
def system : System Stop LockSys Act := ⟨Enabled, exec⟩

/-- The threads have been started, and `lock_init` has been called. -/
structure Start (s : LockSys) : Prop where
  booted : Booted s.sched
  lock : s.lock = lockInit
  outside : ∀ t, s.point t = .outside
  depth : ∀ t, s.depth t = 0

end LockSys

/-! ## The invariant -/

namespace LockPoint

/-- A thread that is here has not taken the semaphore. -/
def Free : LockPoint → Prop
  | .outside | .acqTest | .acqDown | .acqWait _ => True
  | _ => False

/-- What holds of the lock and of the nesting depth when the thread `me` that has taken the
semaphore is here. -/
def Holds (me : Nat) (lock : Lock) (depth : Nat) : LockPoint → Prop
  | .outside | .relCheck | .relTest =>
    0 < depth ∧ lock.holder = some me ∧ lock.holderRepeatNr.toNat = depth
  | .acqTest | .acqAgain =>
    0 < depth ∧ lock.holder = some me ∧ lock.holderRepeatNr.toNat = depth ∧ depth + 1 < 2 ^ 32
  | .relAgain => 1 < depth ∧ lock.holder = some me ∧ lock.holderRepeatNr.toNat = depth
  | .relOne | .relHolder => depth = 1 ∧ lock.holder = some me ∧ lock.holderRepeatNr = 1
  | .relClear => depth = 1 ∧ lock.holder = none ∧ lock.holderRepeatNr = 1
  | .acqCheck | .acqFirst => depth = 0 ∧ lock.holder = some me ∧ lock.holderRepeatNr = 0
  | .relUp | .acqHolder => depth = 0 ∧ lock.holder = none ∧ lock.holderRepeatNr = 0
  | .acqDown | .acqWait _ => False

/-- The thread is in the loop of `sema_down`. -/
def Waits (point : LockPoint) : Prop := ∃ oldStatus, point = .acqWait oldStatus

end LockPoint

open LockPoint (Waits Free Holds)

namespace LockSys

variable {s : LockSys} {t : Nat} {owner : Option Nat} {point : LockPoint}
  {lock : Lock} {depth : Nat}
  {a : Action}

@[simp] theorem sema_sched (s : LockSys) : s.sema.sched = s.sched := rfl

@[simp] theorem sema_sema (s : LockSys) : s.sema.sema = s.lock.semaphore := rfl

/-- The thread `owner` has taken the semaphore of the lock, or nobody has. -/
def Owned (s : LockSys) : Option Nat → Prop
  | none => s.lock.semaphore.value = 1 ∧ s.lock.holder = none ∧ s.lock.holderRepeatNr = 0 ∧
      ∀ t, (s.point t).Free ∧ s.depth t = 0
  | some me => s.lock.semaphore.value = 0 ∧ (s.point me).Holds me s.lock (s.depth me) ∧
      ∀ t, t ≠ me → (s.point t).Free ∧ s.depth t = 0

/-- The invariant of the lock. -/
structure Inv (s : LockSys) : Prop where
  sema : SemaInv s.sema fun t => (s.point t).Waits
  member : ∀ t, s.point t ≠ .outside ∨ s.depth t ≠ 0 → t ∈ s.sched.allList ∧ t ≠ s.sched.idleThread
  owned : ∃ owner, s.Owned owner

theorem Start.inv (h : Start s) : Inv s where
  sema := by
    have hnone : ∀ t, ¬(s.point t).Waits := by
      intro t ⟨oldStatus, ht⟩
      simp [h.outside t] at ht
    have hlist : s.lock.semaphore.waiters = [] := by simp [h.lock, lockInit]
    refine ⟨booted_inv h.booted, .inr (by simp [h.lock, lockInit]), by simp [hlist],
      fun t ht => absurd ht (hnone t), fun t ht => ?_, fun t ht => absurd ht (hnone t),
      fun _ hsome => absurd hlist hsome⟩
    simp [hlist] at ht
  member := by
    intro t ht
    simp [h.outside t, h.depth t] at ht
  owned := ⟨none, by simp [h.lock, lockInit], by simp [h.lock, lockInit],
    by simp [h.lock, lockInit], fun t => by simp [h.outside t, h.depth t, Free]⟩

/-- Only the owner is where the semaphore has been taken. -/
theorem Owned.eq_some (h : s.Owned owner) (ht : ¬((s.point t).Free ∧ s.depth t = 0)) :
    owner = some t := by
  cases owner with
  | none => exact absurd (h.2.2.2 t) ht
  | some me =>
    by_contra hne
    exact ht (h.2.2 t fun heq => hne (by rw [heq]))

theorem Owned.free (h : s.Owned owner) (hne : owner ≠ some t) : (s.point t).Free ∧
    s.depth t = 0 := by
  by_contra ht
  exact hne (h.eq_some ht)

/-- The current thread goes on and changes the lock and its depth. -/
def move (s : LockSys) (lock : Lock) (point : LockPoint) (depth : Nat) : LockSys :=
  { s with
    lock := lock
    point := update s.point s.cur point
    depth := update s.depth s.cur depth }

section

variable (s : LockSys) (lock : Lock) (point : LockPoint) (depth : Nat)

@[simp] theorem move_sched : (s.move lock point depth).sched = s.sched := rfl

@[simp] theorem move_lock : (s.move lock point depth).lock = lock := rfl

@[simp] theorem move_point_cur : (s.move lock point depth).point s.cur = point :=
  update_self _ _ _

@[simp] theorem move_depth_cur : (s.move lock point depth).depth s.cur = depth :=
  update_self _ _ _

theorem move_point_ne (h : t ≠ s.cur) : (s.move lock point depth).point t = s.point t :=
  update_of_ne h _ _

theorem move_depth_ne (h : t ≠ s.cur) : (s.move lock point depth).depth t = s.depth t :=
  update_of_ne h _ _

theorem move_others (t : Nat) (h : t ≠ s.cur) :
    (s.move lock point depth).point t = s.point t ∧
    (s.move lock point depth).depth t = s.depth t :=
  ⟨s.move_point_ne _ _ _ h, s.move_depth_ne _ _ _ h⟩

end

/-- A thread that has not taken the semaphore moves on. -/
theorem Owned.move_free (h : s.Owned owner) (hne : owner ≠ some s.cur) (hfree : point.Free) :
    (s.move s.lock point 0).Owned owner := by
  have hothers : ∀ t, owner ≠ some t → ((s.move s.lock point 0).point t).Free ∧
      (s.move s.lock point 0).depth t = 0 := by
    intro t ht
    by_cases hcur : t = s.cur
    · simp [hcur, hfree]
    · rw [move_point_ne _ _ _ _ hcur, move_depth_ne _ _ _ _ hcur]
      exact h.free ht
  cases owner with
  | none => exact ⟨h.1, h.2.1, h.2.2.1, fun t => hothers t (by simp)⟩
  | some me =>
    have hme : me ≠ s.cur := fun heq => hne (by rw [heq])
    refine ⟨h.1, ?_, fun t ht => hothers t fun heq => ht (Option.some.inj heq).symm⟩
    rw [move_point_ne _ _ _ _ hme, move_depth_ne _ _ _ _ hme]
    exact h.2.1

theorem Owned.move_owner (h : s.Owned (some s.cur))
    (hsema : lock.semaphore = s.lock.semaphore) (hholds : point.Holds s.cur lock depth) :
    (s.move lock point depth).Owned (some s.cur) := by
  refine ⟨?_, ?_, fun t ht => ?_⟩
  · rw [move_lock, hsema]
    exact h.1
  · rw [move_point_cur, move_depth_cur]
    exact hholds
  · rw [move_point_ne _ _ _ _ ht, move_depth_ne _ _ _ _ ht]
    exact h.2.2 t ht

/-- A statement outside of `sema_down` and `sema_up`. -/
theorem Inv.move_inv (h : Inv s) (hsema : lock.semaphore = s.lock.semaphore)
    (hidle : s.cur ≠ s.sched.idleThread) (hfrom : ¬(s.point s.cur).Waits)
    (hto : ¬point.Waits) (howned : (s.move lock point depth).Owned owner) :
    Inv (s.move lock point depth) where
  sema := by
    have heq : (s.move lock point depth).sema = s.sema := by simp [LockSys.sema, hsema]
    rw [heq]
    refine h.sema.congr fun t => ?_
    by_cases hcur : t = s.cur
    · simp [hcur, hfrom, hto]
    · rw [move_point_ne _ _ _ _ hcur]
  member := by
    intro t ht
    by_cases hcur : t = s.cur
    · rw [hcur]
      exact ⟨h.sema.sched.curIn, hidle⟩
    · rw [move_point_ne _ _ _ _ hcur, move_depth_ne _ _ _ _ hcur] at ht
      exact h.member t ht
  owned := ⟨owner, howned⟩

/-! ## Steps -/

/-- The semaphore is free exactly when the lock has no owner. -/
theorem Owned.value_eq_zero_iff (h : s.Owned owner) :
    s.lock.semaphore.value = 0 ↔ owner ≠ none := by
  cases owner with
  | none => simp [h.1]
  | some me => simp [h.1]

/-- The current thread waits in `sema_down`. -/
def waitHere (s : LockSys) (oldStatus : Bool) : LockSys :=
  { s with
    sched := s.sema.wait.sched
    lock.semaphore := s.sema.wait.sema
    point := update s.point s.cur (.acqWait oldStatus) }

/-- The current thread takes the semaphore and leaves `sema_down`. -/
def takeHere (s : LockSys) (oldStatus : Bool) : LockSys :=
  { s with
    sched.intr := oldStatus
    lock.semaphore.value := 0
    point := update s.point s.cur .acqHolder }

/-- The state after a pass through the loop of `sema_down`. -/
def tryDown (s : LockSys) (oldStatus : Bool) : LockSys :=
  if s.lock.semaphore.value = 0 then s.waitHere oldStatus else s.takeHere oldStatus

/-- The state after `sema_up`. -/
def upHere (s : LockSys) : LockSys :=
  { s with
    sched := s.sema.up.sched
    lock.semaphore := s.sema.up.sema
    point := update s.point s.cur .outside }

/-- The state after a statement. -/
def stepped (s : LockSys) : LockSys :=
  let me := s.cur
  let depth := s.depth me
  match s.point me with
  | .outside => s
  | .acqTest => s.move s.lock (if s.lock.holder ≠ some me then .acqDown else .acqAgain) depth
  | .acqDown => { s with sched.intr := false }.tryDown s.sched.intr
  | .acqWait oldStatus => s.tryDown oldStatus
  | .acqHolder => s.move { s.lock with holder := some me } .acqCheck depth
  | .acqCheck => s.move s.lock .acqFirst depth
  | .acqFirst => s.move { s.lock with holderRepeatNr := 1 } .outside (depth + 1)
  | .acqAgain =>
    s.move { s.lock with holderRepeatNr := s.lock.holderRepeatNr + 1 } .outside (depth + 1)
  | .relCheck => s.move s.lock .relTest depth
  | .relTest => s.move s.lock (if s.lock.holderRepeatNr > 1 then .relAgain else .relOne) depth
  | .relAgain =>
    s.move { s.lock with holderRepeatNr := s.lock.holderRepeatNr - 1 } .outside (depth - 1)
  | .relOne => s.move s.lock .relHolder depth
  | .relHolder => s.move { s.lock with holder := none } .relClear depth
  | .relClear => s.move { s.lock with holderRepeatNr := 0 } .relUp (depth - 1)
  | .relUp => s.upHere

/-- What holds when the current thread is where only the owner can be. -/
theorem Inv.holds (h : Inv s) (hfree : ¬(s.point s.cur).Free) : s.Owned (some s.cur) ∧
      (s.point s.cur).Holds s.cur s.lock (s.depth s.cur) := by
  obtain ⟨owner, howned⟩ := h.owned
  obtain rfl := howned.eq_some fun hboth => hfree hboth.1
  exact ⟨howned, howned.2.1⟩

theorem Inv.not_idle (h : Inv s) (hpoint : s.point s.cur ≠ .outside) :
    s.cur ≠ s.sched.idleThread := (h.member _ (.inl hpoint)).2

/-- A thread that is in the loop of `sema_down` runs with interrupts off. -/
theorem Inv.waits_off (h : Inv s) (hcur : (s.point s.cur).Waits) : s.sched.intr = false :=
  h.sema.waits_off hcur

theorem Inv.set_intr (h : Inv s) (hcur : ¬(s.point s.cur).Waits) (status : Bool) :
    Inv { s with sched.intr := status } :=
  ⟨h.sema.after_inv (a := .setIntr status) trivial trivial hcur fun _ _ => trivial,
  h.member, h.owned⟩

/-- The loop of `sema_down` is left at once or where it blocks. -/
theorem Inv.sema_down_loop_eq (h : Inv s) (hidle : s.cur ≠ s.sched.idleThread)
    (oldStatus : Bool) :
    semaDownLoop s.cur oldStatus s = .done () (s.tryDown oldStatus) := by
  have htry : semaTry ⟨s.sched, s.lock.semaphore⟩ = _ := h.sema.sema_try_eq hidle
  by_cases hvalue : s.lock.semaphore.value = 0
  · simp [semaDownLoop, bind_run, goto, onSema, zoom, LockSys.sema, htry, tryDown, waitHere,
      hvalue, when, ret]
  · simp [semaDownLoop, bind_run, goto, onSema, zoom, LockSys.sema, htry, tryDown, takeHere,
      hvalue, when, onSched, intrSetStatus, SemaState.take]

/-- No statement of the lock stops. -/
theorem Inv.statement_eq (h : Inv s) : statement s = .done () s.stepped := by
  simp only [statement, bind_run, state_run, stepped]
  cases hpoint : s.point s.cur with
  | outside => rfl
  | acqDown =>
    have hnot : ¬(s.point s.cur).Waits := by simp [hpoint, Waits]
    exact (h.set_intr hnot false).sema_down_loop_eq (h.not_idle (by simp [hpoint])) _
  | acqWait oldStatus => exact h.sema_down_loop_eq (h.not_idle (by simp [hpoint])) oldStatus
  | acqCheck | relCheck | relOne =>
    have hholds := (h.holds (by simp [hpoint, Free])).2
    rw [hpoint] at hholds
    simp [bind_run, assert, hholds.2.1, hholds.2.2, goto, move]
  | acqTest | acqHolder | acqFirst | acqAgain | relTest | relAgain | relHolder | relClear =>
    simp [bind_run, goto, nest, move]
  | relUp =>
    obtain ⟨⟨hvalue, -⟩, -⟩ := h.holds (by simp [hpoint, Free])
    have hup := h.sema.sema_up_eq hvalue
    simp [bind_run, onSema, zoom, hup, goto, upHere]

/-- Where the other threads are does not change. -/
theorem stepped_others (s : LockSys) (ht : t ≠ s.cur) :
    s.stepped.point t = s.point t ∧ s.stepped.depth t = s.depth t := by
  simp only [stepped]
  split <;> simp [move, tryDown, upHere, ht]
  all_goals split <;> simp [waitHere, takeHere, ht]

/-- A list of threads in calls grows by the current thread at most. -/
theorem Inv.update_member (h : Inv s) (hidle : s.cur ≠ s.sched.idleThread)
    (ht : update s.point s.cur point t ≠ .outside ∨ s.depth t ≠ 0) :
    t ∈ s.sched.allList ∧ t ≠ s.sched.idleThread := by
  by_cases htc : t = s.cur
  · rw [htc]
    exact ⟨h.sema.sched.curIn, hidle⟩
  · rw [update_of_ne htc] at ht
    exact h.member t ht

/-- The lock is taken: the thread waits. -/
theorem Inv.wait_inv (h : Inv s) (howned : s.Owned owner) (hnot : owner ≠ some s.cur)
    (hidle : s.cur ≠ s.sched.idleThread) (hoff : s.sched.intr = false)
    (hvalue : s.lock.semaphore.value = 0) (oldStatus : Bool) : Inv (s.waitHere oldStatus) := by
  refine ⟨?_, fun t ht => h.update_member hidle ht, owner, ?_⟩
  · refine h.sema.wait_inv hvalue hidle hoff fun t => ?_
    by_cases htc : t = s.cur
    · simp [htc, Waits, waitHere]
    · simp [htc, waitHere]
  · -- The thread waits outside of what the lock protects.
    have hfree : (s.move s.lock (.acqWait oldStatus) 0).Owned owner := howned.move_free hnot trivial
    rw [(howned.free hnot).2.symm, move, Function.update_eq_self] at hfree
    cases owner with
    | none => exact absurd hvalue (by simp [howned.1])
    | some me => exact ⟨hvalue, hfree.2⟩

/-- The lock is free: the thread takes it. -/
theorem Inv.take_inv (h : Inv s) (howned : s.Owned none)
    (hidle : s.cur ≠ s.sched.idleThread) (oldStatus : Bool) : Inv (s.takeHere oldStatus) := by
  refine ⟨?_, fun t ht => h.update_member hidle ht, some s.cur, rfl, ?_, fun t ht => ?_⟩
  · have htake : SemaInv s.sema.take fun t => (s.point t).Waits ∧ t ≠ s.cur :=
      h.sema.take_inv fun _ => Iff.rfl
    have hset := htake.after_inv (a := .setIntr oldStatus) trivial trivial
      (fun hcur => hcur.2 rfl) fun _ _ => trivial
    refine hset.congr fun t => ?_
    by_cases htc : t = s.cur
    · simp [htc, Waits, takeHere]
    · simp [htc, takeHere]
  · show Holds _ _ _ (update s.point _ _ _)
    rw [update_self]
    exact ⟨(howned.2.2.2 _).2, howned.2.1, howned.2.2.1⟩
  · show (update s.point _ LockPoint.acqHolder t).Free ∧ _
    rw [update_of_ne ht]
    exact howned.2.2.2 t

/-- A pass through the loop of `sema_down`. -/
theorem Inv.try_down_inv (h : Inv s)
    (hcur : s.point s.cur = .acqDown ∨ (s.point s.cur).Waits)
    (hoff : s.sched.intr = false) (oldStatus : Bool) : Inv (s.tryDown oldStatus) := by
  obtain ⟨owner, howned⟩ := h.owned
  have hnot : owner ≠ some s.cur := by
    rintro rfl
    have hholds := howned.2.1
    rcases hcur with hcur | ⟨old, hcur⟩ <;> simp [hcur, Holds] at hholds
  have hidle := h.not_idle (by rcases hcur with hcur | ⟨old, hcur⟩ <;> simp [hcur])
  unfold tryDown
  split
  case isTrue hvalue => exact h.wait_inv howned hnot hidle hoff hvalue oldStatus
  case isFalse hvalue =>
    obtain rfl : owner = none := by
      by_contra hsome
      exact hvalue (howned.value_eq_zero_iff.2 hsome)
    exact h.take_inv howned hidle oldStatus

/-- The holder gives the semaphore back. -/
theorem Inv.up_inv (h : Inv s) (hcur : s.point s.cur = .relUp) : Inv s.upHere := by
  obtain ⟨⟨-, hholds, hothers⟩, -⟩ := h.holds (by simp [hcur, Free])
  rw [hcur] at hholds
  obtain ⟨hdepth, hholder, hnr⟩ := hholds
  refine ⟨h.sema.up_inv.congr fun t => ?_, fun t ht => ?_, none, rfl, hholder, hnr, fun t => ?_⟩
  · show (update s.point _ LockPoint.outside t).Waits ↔ _
    by_cases htc : t = s.cur
    · simp [htc, hcur, Waits]
    · simp [htc]
  · have hin := h.update_member (h.not_idle (by simp [hcur])) ht
    simp only [upHere, up]
    split <;> exact hin
  · show (update s.point _ LockPoint.outside t).Free ∧ s.depth t = 0
    by_cases htc : t = s.cur
    · simp [htc, hdepth, Free]
    · rw [update_of_ne htc]
      exact hothers t htc

theorem Owned.of_holder (h : s.Owned owner) (ht : s.lock.holder = some t) : owner = some t := by
  cases owner with
  | none => simp [h.2.1] at ht
  | some me =>
    have hholds := h.2.1
    cases hpoint : s.point me <;> simp_all [Holds]

/-- A statement of the owner outside of `sema_up`. -/
theorem Inv.owner_step {p : LockPoint} (h : Inv s) (hpoint : s.point s.cur = p)
    (hfree : ¬p.Free) (hsema : lock.semaphore = s.lock.semaphore) (hto : ¬point.Waits)
    (hholds : p.Holds s.cur s.lock (s.depth s.cur) →
      point.Holds s.cur lock depth) : Inv (s.move lock point depth) := by
  subst hpoint
  obtain ⟨howned, hbefore⟩ := h.holds hfree
  have hpoint : s.point s.cur ≠ .outside := by
    intro heq
    simp [heq, Free] at hfree
  have hfrom : ¬(s.point s.cur).Waits := by
    intro ⟨old, heq⟩
    simp [heq, Free] at hfree
  exact h.move_inv hsema (h.not_idle hpoint) hfrom hto (howned.move_owner hsema (hholds hbefore))

theorem Inv.acquire_test (h : Inv s) (hpoint : s.point s.cur = .acqTest) :
    Inv (s.move s.lock (if s.lock.holder ≠ some s.cur then .acqDown else .acqAgain)
      (s.depth s.cur)) := by
  obtain ⟨owner, howned⟩ := h.owned
  have hidle := (h.member s.cur (.inl (by simp [hpoint]))).2
  have hfrom : ¬(s.point s.cur).Waits := by simp [hpoint, Waits]
  by_cases hown : owner = some s.cur
  · subst hown
    have hholds := howned.2.1
    rw [hpoint] at hholds
    rw [if_neg (not_not.2 hholds.2.1)]
    exact h.move_inv rfl hidle hfrom (by simp [Waits]) (howned.move_owner rfl hholds)
  · rw [if_pos fun hholder => hown (howned.of_holder hholder), (howned.free hown).2]
    exact h.move_inv rfl hidle hfrom (by simp [Waits]) (howned.move_free hown trivial)

/-- Every statement keeps the invariant. -/
theorem Inv.stepped_inv (h : Inv s) : Inv s.stepped := by
  simp only [stepped]
  cases hpoint : s.point s.cur with
  | outside => exact h
  | acqTest => exact h.acquire_test hpoint
  | acqDown =>
    have hnot : ¬(s.point s.cur).Waits := by simp [hpoint, Waits]
    exact (h.set_intr hnot false).try_down_inv (.inl hpoint) rfl _
  | acqWait oldStatus =>
    have hwaits : (s.point s.cur).Waits := ⟨oldStatus, hpoint⟩
    exact h.try_down_inv (.inr hwaits) (h.waits_off hwaits) oldStatus
  | acqHolder | relHolder =>
    refine h.owner_step hpoint id rfl (by simp [Waits]) fun hholds => ?_
    exact ⟨hholds.1, rfl, hholds.2.2⟩
  | acqCheck | relCheck | relOne =>
    exact h.owner_step hpoint id rfl (by simp [Waits]) id
  | acqFirst =>
    refine h.owner_step hpoint id rfl (by simp [Waits]) fun hholds => ?_
    exact ⟨by omega, hholds.2.1, by simp [hholds.1]⟩
  | acqAgain =>
    refine h.owner_step hpoint id rfl (by simp [Waits]) ?_
    intro ⟨hpos, hholder, hnr, hroom⟩
    refine ⟨by omega, hholder, ?_⟩
    rw [UInt32.toNat_add, hnr]
    exact Nat.mod_eq_of_lt hroom
  | relTest =>
    show Inv (s.move s.lock (if s.lock.holderRepeatNr > 1 then .relAgain else .relOne) _)
    split
    case isTrue hmore =>
      refine h.owner_step hpoint id rfl (by simp [Waits]) ?_
      intro ⟨_, hholder, hnr⟩
      have hlt : 1 < s.lock.holderRepeatNr.toNat := hmore
      exact ⟨by omega, hholder, hnr⟩
    case isFalse hmore =>
      refine h.owner_step hpoint id rfl (by simp [Waits]) ?_
      intro ⟨hpos, hholder, hnr⟩
      have hle : ¬1 < s.lock.holderRepeatNr.toNat := hmore
      have hone : s.lock.holderRepeatNr.toNat = 1 := by omega
      exact ⟨by omega, hholder, UInt32.toNat_inj.1 hone⟩
  | relAgain =>
    refine h.owner_step hpoint id rfl (by simp [Waits]) ?_
    intro ⟨hmore, hholder, hnr⟩
    have hle : 1 ≤ s.lock.holderRepeatNr := by
      show 1 ≤ s.lock.holderRepeatNr.toNat
      omega
    exact ⟨by omega, hholder, by rw [UInt32.toNat_sub_of_le _ _ hle, hnr]; rfl⟩
  | relClear =>
    refine h.owner_step hpoint id rfl (by simp [Waits]) fun hholds => ?_
    exact ⟨by rw [hholds.1], hholds.2.1, rfl⟩
  | relUp => exact h.up_inv hpoint

/-! ## Runs -/

/-- No thread acquires the lock while the count of what it holds is at its largest value. -/
def RoomToNest (s : LockSys) : Act → Prop
  | .acquire => s.lock.holder = some s.cur → s.lock.holderRepeatNr ≠ 0xffffffff
  | _ => True

/-- A call of `lock_acquire` starts. -/
theorem Inv.acquire_inv (h : Inv s) (henabled : Enabled s .acquire)
    (hroom : RoomToNest s .acquire) : Inv (s.move s.lock .acqTest (s.depth s.cur)) := by
  obtain ⟨hpoint, hidle⟩ := henabled
  obtain ⟨owner, howned⟩ := h.owned
  have hfrom : ¬(s.point s.cur).Waits := by simp [hpoint, Waits]
  by_cases hown : owner = some s.cur
  · subst hown
    have hholds := howned.2.1
    rw [hpoint] at hholds
    obtain ⟨hpos, hholder, hnr⟩ := hholds
    have hmax : s.lock.holderRepeatNr.toNat ≠ 0xffffffff :=
      fun heq => hroom hholder (UInt32.toNat_inj.1 heq)
    have hlt := s.lock.holderRepeatNr.toNat_lt
    refine h.move_inv rfl hidle hfrom (by simp [Waits]) (howned.move_owner rfl ?_)
    exact ⟨hpos, hholder, hnr, by omega⟩
  · rw [(howned.free hown).2]
    exact h.move_inv rfl hidle hfrom (by simp [Waits]) (howned.move_free hown trivial)

/-- A call of `lock_release` starts. -/
theorem Inv.release_inv (h : Inv s) (henabled : Enabled s .release) :
    Inv (s.move s.lock .relCheck (s.depth s.cur)) := by
  obtain ⟨hpoint, hpos⟩ := henabled
  obtain ⟨owner, howned⟩ := h.owned
  obtain rfl := howned.eq_some (t := s.cur) fun hboth => by omega
  have hholds := howned.2.1
  rw [hpoint] at hholds
  exact h.move_inv rfl (h.member s.cur (.inr (by omega))).2 (by simp [hpoint, Waits])
    (by simp [Waits]) (howned.move_owner rfl hholds)

/-- The scheduler acts while the current thread is not in the loop of `sema_down`. -/
theorem Inv.after_inv (h : Inv s) (hout : ¬(s.point s.cur).Waits)
    (henabled : a.Enabled s.sched) (hblocks : IdleBlocks s.sched a) (hspares : s.SparesLock a) :
    Inv { s with sched := s.sched.after a } := by
  have hall : ∀ t, (s.point t).Waits → a.Spares t := by
    intro t ⟨old, ht⟩
    cases a with
    | unblock p =>
      rintro rfl
      simp [show s.point p = .outside from hspares] at ht
    | exit p =>
      rintro rfl
      simp [hspares.1] at ht
    | timer | block | yield | start | setIntr => exact trivial
  refine ⟨h.sema.after_inv henabled hblocks hout hall, fun t ht => ?_, h.owned⟩
  obtain ⟨hin, hidle⟩ := h.member t ht
  refine ⟨h.sema.sched.after_mem hin ?_, by simpa using hidle⟩
  rintro rfl
  rcases ht with ht | ht
  · exact ht hspares.1
  · exact ht hspares.2

/-- An action of the scheduler. -/
theorem Inv.sched_inv (h : Inv s) (henabled : Enabled s (.sched a)) :
    Inv { s with sched := s.sched.after a } := by
  obtain ⟨hcur, henabled, hblocks, hspares⟩ := henabled
  refine h.after_inv (fun hwaits => ?_) henabled hblocks hspares
  rcases hcur with rfl | hcur
  · exact absurd henabled (by simp [Action.Enabled, h.waits_off hwaits])
  · simp [hcur, Waits] at hwaits

theorem exec_acquire_eq (s : LockSys) :
    exec .acquire s = .done () (s.move s.lock .acqTest (s.depth s.cur)) := by
  simp [exec, bind_run, goto, move]

theorem exec_release_eq (s : LockSys) :
    exec .release s = .done () (s.move s.lock .relCheck (s.depth s.cur)) := by
  simp [exec, bind_run, goto, move]

/-- At most one thread holds the lock. -/
theorem Inv.exclusive (h : Inv s) {u : Nat} (ht : 0 < s.depth t) (hu : 0 < s.depth u) : t = u := by
  obtain ⟨owner, howned⟩ := h.owned
  have howner : ∀ t, 0 < s.depth t → owner = some t :=
    fun t ht => howned.eq_some fun hboth => by omega
  exact Option.some.inj ((howner t ht).symm.trans (howner u hu))

/-- Every action succeeds and keeps the invariant. -/
theorem Inv.exec_spec (h : Inv s) {a : Act} (henabled : Enabled s a) (hroom : RoomToNest s a) :
    wp never (exec a) s fun _ last => Inv last := by
  cases a with
  | sched a =>
    simp only [exec, onSema, onSched, wp_zoom]
    refine (wp_of_done (h.sema.sched.exec_eq henabled.2.1 henabled.2.2.1)).2 ?_
    exact h.sched_inv henabled
  | acquire => exact (wp_of_done s.exec_acquire_eq).2 (h.acquire_inv henabled hroom)
  | release => exact (wp_of_done s.exec_release_eq).2 (h.release_inv henabled)
  | statement => exact (wp_of_done h.statement_eq).2 h.stepped_inv

/-- What a lock promises in a state, as long as the next action meets `cond`: at most one thread
holds the lock, `holder_repeat_nr` is how often it does, and no `ASSERT` fails. -/
structure LockOk (cond : LockSys → Act → Prop) (s : LockSys) : Prop where
  exclusive : ∀ t u, 0 < s.depth t → 0 < s.depth u → t = u
  repeatNr : ∀ t, 0 < s.depth t → s.lock.holderRepeatNr.toNat = s.depth t
  unheld : (∀ t, s.depth t = 0) → s.lock.holderRepeatNr = 0
  returns : ∀ a, Enabled s a → cond s a → ∃ last, exec a s = .done () last

theorem Inv.lock_ok (h : Inv s) : LockOk RoomToNest s := by
  obtain ⟨owner, howned⟩ := h.owned
  have howner : ∀ t, 0 < s.depth t → owner = some t :=
    fun t ht => howned.eq_some fun hboth => by omega
  refine ⟨fun t u ht hu => ?_, fun t ht => ?_, fun hnone => ?_, fun a henabled hroom => ?_⟩
  · exact h.exclusive ht hu
  · obtain rfl := howner t ht
    have hholds := howned.2.1
    cases hpoint : s.point t <;> simp_all [Holds]
  · cases owner with
    | none => exact howned.2.2.1
    | some me =>
      have hholds := howned.2.1
      cases hpoint : s.point me <;> simp_all [Holds]
  · obtain ⟨_, last, hdone, -⟩ := wp_never_iff.1 (h.exec_spec henabled hroom)
    exact ⟨last, hdone⟩

/-- In every state that threads using a lock reach, the lock keeps its promises. -/
theorem lock_ok_of_run {last : LockSys} (hstart : Start s) (hrun : system.Run RoomToNest s last) :
    LockOk RoomToNest last := by
  have hinv := System.Run.invariant (fun _ _ h henabled hroom =>
    wp_of_never (h.exec_spec henabled hroom)) hrun hstart.inv
  exact hinv.lock_ok

/-! ## The largest depth -/

instance (s : LockSys) : (a : Action) → Decidable (s.SparesLock a)
  | .timer | .block _ | .unblock _ | .yield | .start _ _ | .exit _ | .setIntr _ => by
    unfold SparesLock
    infer_instance

instance (s : LockSys) (a : Act) : Decidable (system.Enabled s a) := by
  cases a <;> dsimp only [system, Enabled] <;> infer_instance

instance (s : LockSys) (a : Act) : Decidable (RoomToNest s a) := by
  cases a <;> unfold RoomToNest <;> infer_instance

/-- A free lock after the start of the threads. -/
def three : LockSys := ⟨Sched.three, lockInit, fun _ => .outside, fun _ => 0⟩

theorem three_start : Start three := ⟨three_booted, rfl, fun _ => rfl, fun _ => rfl⟩

/-- The call of `lock_acquire` by a thread that does not hold the free lock. -/
def acquireFree : List Act := [.acquire, .statement, .statement, .statement, .statement, .statement]

/-- The main thread acquires the lock twice, `init` waits for it, and the main thread runs again. -/
theorem lock_ok_waiting : ∃ last, system.Run RoomToNest three last ∧
    last.depth 0xc009e000 = 2 ∧ last.point 0xc0100000 = .acqWait true ∧ LockOk RoomToNest last := by
  obtain ⟨last, hrun, hdepth, hpoint⟩ := system.exists_run_of_follow RoomToNest
    (acquireFree ++ [.acquire, .statement, .statement, .sched (.setIntr true), .sched .yield,
      .acquire, .statement, .statement, .sched (.block .blocked)]) three
    (fun s => s.depth 0xc009e000 = 2 ∧ s.point 0xc0100000 = .acqWait true) (by decide)
  exact ⟨last, hrun, hdepth, hpoint, lock_ok_of_run three_start hrun⟩

/-- The holder acquires the lock once more. -/
theorem run_again (hpoint : s.point s.cur = .outside)
    (hidle : s.cur ≠ s.sched.idleThread) (hholder : s.lock.holder = some s.cur) :
    system.Run (fun _ _ => True) s
      (s.move { s.lock with holderRepeatNr := s.lock.holderRepeatNr + 1 } .outside
        (s.depth s.cur + 1)) := by
  have hsecond : exec .statement (s.move s.lock .acqTest (s.depth s.cur)) =
      .done () (s.move s.lock .acqAgain (s.depth s.cur)) := by
    simp [exec, statement, bind_run, goto, move, hholder]
  have hthird : exec .statement (s.move s.lock .acqAgain (s.depth s.cur)) =
      .done () (s.move { s.lock with holderRepeatNr := s.lock.holderRepeatNr + 1 } .outside
        (s.depth s.cur + 1)) := by
    simp [exec, statement, bind_run, goto, nest, move]
  refine .head ⟨.acquire, ⟨hpoint, hidle⟩, trivial, s.exec_acquire_eq⟩ ?_
  refine .head ⟨.statement, by simp [system, Enabled, cur], trivial, hsecond⟩ ?_
  exact .single ⟨.statement, by simp [system, Enabled, cur], trivial, hthird⟩

theorem run_nested (hpoint : s.point s.cur = .outside)
    (hidle : s.cur ≠ s.sched.idleThread) (hholder : s.lock.holder = some s.cur)
    (n : Nat) :
    system.Run (fun _ _ => True) s
      (s.move { s.lock with holderRepeatNr := s.lock.holderRepeatNr + UInt32.ofNat n } .outside
        (s.depth s.cur + n)) := by
  induction n with
  | zero =>
    have hsame : s.move { s.lock with holderRepeatNr := s.lock.holderRepeatNr + UInt32.ofNat 0 }
        .outside (s.depth s.cur + 0) = s := by
      have hpt : update s.point s.cur .outside = s.point := by
        rw [← hpoint, Function.update_eq_self]
      simp [move, hpt]
    rw [hsame]
  | succ n ih =>
    have hlast := run_again (s := s.move { s.lock with
      holderRepeatNr := s.lock.holderRepeatNr + UInt32.ofNat n } .outside
      (s.depth s.cur + n)) (by simp [cur]) hidle hholder
    simp only [move, Function.update_idem, update_self] at hlast
    rw [UInt32.ofNat_add, ← UInt32.add_assoc]
    exact ih.trans hlast

/-- After 2^32 nested calls of `lock_acquire`, `holder_repeat_nr` is 0. -/
theorem repeat_nr_wraps : ∃ last, system.Run (fun _ _ => True) three last ∧
    ¬LockOk (fun _ _ => True) last := by
  obtain ⟨mid, hrun, hpoint, hidle, hholder, hnr, hdepth⟩ := system.exists_run_of_follow
    (fun _ _ => True) acquireFree three (fun s => s.point s.cur = .outside ∧
      s.cur ≠ s.sched.idleThread ∧ s.lock.holder = some s.cur ∧
      s.lock.holderRepeatNr = 1 ∧ s.depth s.cur = 1) (by decide)
  have hnested := run_nested hpoint hidle hholder 0xffffffff
  refine ⟨_, hrun.trans hnested, fun hok => ?_⟩
  have hcount := hok.repeatNr mid.sched.cur (by simp)
  rw [move_depth_cur, hnr, hdepth] at hcount
  have hwrap : (1 + UInt32.ofNat 0xffffffff).toNat ≠ 1 + 0xffffffff := by decide
  exact hwrap hcount

end LockSys

/-! ## Calls that do not nest -/

namespace LockPoint

/-- The thread is in a call of `lock_acquire` that is not nested. -/
def Acquiring (depth : Nat) : LockPoint → Prop
  | .acqTest | .acqDown | .acqWait _ | .acqHolder | .acqCheck | .acqFirst => depth = 0
  | _ => False

/-- The thread is in a call of `lock_release` that is not nested. -/
def Releasing (depth : Nat) : LockPoint → Prop
  | .relCheck | .relTest | .relOne | .relHolder | .relClear => depth = 1
  | .relUp => depth = 0
  | _ => False

end LockPoint

namespace LockSys

variable {s : LockSys} {t : Nat} {oldStatus : Bool}

theorem try_down_acquiring (oldStatus : Bool) (hdepth : s.depth s.cur = 0) :
    ((s.tryDown oldStatus).point s.cur).Acquiring ((s.tryDown oldStatus).depth
      s.cur) := by
  unfold tryDown
  split <;> simpa [waitHere, takeHere, LockPoint.Acquiring] using hdepth

/-- A call of `lock_acquire` goes on or returns with the lock held. -/
theorem Inv.acquiring_step (h : Inv s)
    (hcur : (s.point s.cur).Acquiring (s.depth s.cur)) :
    (s.stepped.point s.cur).Acquiring (s.stepped.depth s.cur) ∨
      s.stepped.point s.cur = .outside ∧ s.stepped.depth s.cur = 1 := by
  simp only [stepped]
  cases hpoint : s.point s.cur with
  | acqTest =>
    rw [hpoint] at hcur
    have hdepth : s.depth s.cur = 0 := hcur
    -- A thread that holds nothing is not the holder.
    have hholder : s.lock.holder ≠ some s.cur := by
      intro heq
      obtain ⟨owner, howned⟩ := h.owned
      obtain rfl := howned.of_holder heq
      have hholds := howned.2.1
      rw [hpoint] at hholds
      have hpos := hholds.1
      omega
    simp [hholder, LockPoint.Acquiring, hdepth]
  | acqDown =>
    rw [hpoint] at hcur
    exact .inl (try_down_acquiring _ hcur)
  | acqWait oldStatus =>
    rw [hpoint] at hcur
    exact .inl (try_down_acquiring oldStatus hcur)
  | acqHolder | acqCheck | acqFirst => simp_all [LockPoint.Acquiring]
  | outside | acqAgain | relCheck | relTest | relAgain | relOne | relHolder | relClear | relUp =>
    simp [hpoint, LockPoint.Acquiring] at hcur

/-- A call of `lock_release` goes on or returns with the lock released. -/
theorem Inv.releasing_step (h : Inv s)
    (hcur : (s.point s.cur).Releasing (s.depth s.cur)) :
    (s.stepped.point s.cur).Releasing (s.stepped.depth s.cur) ∨
      s.stepped.point s.cur = .outside ∧ s.stepped.depth s.cur = 0 := by
  simp only [stepped]
  cases hpoint : s.point s.cur with
  | relTest =>
    rw [hpoint] at hcur
    have hdepth : s.depth s.cur = 1 := hcur
    have hholds := (h.holds (by simp [hpoint, Free])).2
    rw [hpoint] at hholds
    have hone : ¬s.lock.holderRepeatNr > 1 := by
      intro hmore
      have hlt : 1 < s.lock.holderRepeatNr.toNat := hmore
      have hnr := hholds.2.2
      omega
    simp [hone, LockPoint.Releasing, hdepth]
  | relUp =>
    rw [hpoint] at hcur
    exact .inr ⟨by simp [upHere], hcur⟩
  | relCheck | relOne | relHolder | relClear => simp_all [LockPoint.Releasing]
  | outside | acqTest | acqDown | acqWait | acqHolder | acqCheck | acqFirst | acqAgain | relAgain =>
    simp [hpoint, LockPoint.Releasing] at hcur

/-- The interrupt status with which a thread waits is the one it had in its call. -/
theorem stepped_waits (h : s.stepped.point s.cur = .acqWait oldStatus) :
    s.point s.cur = .acqWait oldStatus ∨ oldStatus = s.sched.intr := by
  simp only [stepped] at h
  cases hpoint : s.point s.cur with
  | acqDown =>
    simp only [hpoint, tryDown] at h
    split at h <;> simp_all [waitHere, takeHere]
  | acqWait old =>
    simp only [hpoint, tryDown] at h
    split at h <;> simp_all [waitHere, takeHere]
  | acqTest | relTest =>
    simp only [hpoint] at h
    split at h <;> simp at h
  | outside | acqHolder | acqCheck | acqFirst | acqAgain | relCheck | relAgain |
    relOne | relHolder |
    relClear | relUp => simp [hpoint, upHere] at h

/-- A thread that does not wait after its statement goes on running. -/
theorem stepped_stays (hnot : ¬(s.stepped.point s.cur).Waits) :
    s.stepped.sched.cur = s.cur ∧ (s.stepped.sched.intr = s.sched.intr ∨
      s.point s.cur = .acqWait s.stepped.sched.intr) := by
  simp only [stepped] at hnot ⊢
  cases hpoint : s.point s.cur with
  | acqDown | acqWait =>
    simp only [hpoint, tryDown] at hnot ⊢
    split at hnot
    · simp [waitHere, Waits] at hnot
    · rename_i hvalue
      simp only [if_neg hvalue]
      simp [takeHere]
  | relUp =>
    simp only [upHere, up]
    split <;> exact ⟨rfl, .inl rfl⟩
  | outside | acqTest | acqHolder | acqCheck | acqFirst | acqAgain | relCheck | relTest | relAgain |
    relOne | relHolder | relClear => exact ⟨rfl, .inl rfl⟩

/-- What a statement does to a thread that is neither the current one nor in `sema_down`. -/
theorem Inv.stepped_bystander (h : Inv s) (hin : t ∈ s.sched.allList) (hcur : t ≠ s.cur)
    (hidle : t ≠ s.sched.idleThread) (hnot : ¬(s.point t).Waits) :
    Bystander s.sched s.stepped.sched t := by
  have hsame : ∀ status, Bystander s.sched { s.sched with intr := status } t :=
    fun status => .of_tcb hcur hin rfl
  have htry : ∀ old status, s.point s.cur ≠ .outside →
      Bystander s.sched ({ s with sched.intr := status }.tryDown old).sched t := by
    intro old status hpoint
    unfold tryDown
    split
    · have hsched := h.sema.sched.set_intr status
      obtain ⟨hmem, hold, hstatus⟩ := hsched.after_bystander (a := .block .blocked) (.inl rfl)
        (fun heq => absurd heq (h.not_idle hpoint)) hin hcur hidle trivial
      exact ⟨hmem, hold, hstatus⟩
    · exact hsame old
  simp only [stepped]
  cases hpoint : s.point s.cur with
  | acqDown => exact htry _ false (by simp [hpoint])
  | acqWait old => exact htry old s.sched.intr (by simp [hpoint])
  | relUp =>
    simp only [upHere, up]
    split
    · exact hsame s.sched.intr
    · rename_i first rest hlist
      have hfirst := (h.sema.waiting first (by rw [hlist]; exact List.mem_cons_self)).1
      have hne : t ≠ first := fun heq => hnot (heq ▸ hfirst)
      exact .of_tcb hcur hin (s.sched.wake_tcb_ne hne)
  | outside | acqTest | acqHolder | acqCheck | acqFirst | acqAgain | relCheck | relTest | relAgain |
    relOne | relHolder | relClear => exact hsame s.sched.intr

theorem stepped_threads (s : LockSys) : s.stepped.sched.allList = s.sched.allList ∧
    s.stepped.sched.idleThread = s.sched.idleThread ∧
    s.stepped.sched.mainThread = s.sched.mainThread := by
  simp only [stepped]
  split
  case h_3 | h_4 =>
    unfold tryDown
    split <;> exact ⟨rfl, rfl, rfl⟩
  case h_15 =>
    simp only [upHere, up]
    split <;> exact ⟨rfl, rfl, rfl⟩
  all_goals exact ⟨rfl, rfl, rfl⟩

/-- A thread that holds nothing has room to acquire the lock. -/
theorem Inv.room_to_nest (h : Inv s) (hpoint : s.point s.cur = .outside)
    (hdepth : s.depth s.cur = 0) : RoomToNest s .acquire := by
  intro hholder
  obtain ⟨owner, howned⟩ := h.owned
  obtain rfl := howned.of_holder hholder
  have hholds := howned.2.1
  rw [hpoint] at hholds
  have hpos := hholds.1
  omega

end LockSys

/-! ## Users of a lock -/

/-- How a thread uses a lock that it does not nest. Where it enters or leaves, `lock_acquire` or
`lock_release` may have returned already. -/
inductive LockUse where
  | out
  | entering
  | held
  | leaving

/-- Where a thread with such a use is in the functions of the lock. -/
def LockUse.At (point : LockPoint) (depth : Nat) : LockUse → Prop
  | .out => point = .outside ∧ depth = 0
  | .entering => point.Acquiring depth ∨ point = .outside ∧ depth = 1
  | .held => point = .outside ∧ depth = 1
  | .leaving => point = .outside ∧ depth = 0 ∨ point.Releasing depth

namespace LockSys

/-- Every thread uses the lock as its place in the calls of another system says. -/
def Calls {α : Type} (s : LockSys) (use : α → LockUse) (place : Nat → α) : Prop :=
  ∀ t, (use (place t)).At (s.point t) (s.depth t)

variable {α : Type} {s : LockSys} {use : α → LockUse} {place : Nat → α} {p : α} {t : Nat}

theorem Start.calls (h : Start s) (hplace : ∀ t, use (place t) = .out) : s.Calls use place := by
  intro t
  rw [hplace t]
  exact ⟨h.outside t, h.depth t⟩

section

variable (h : s.Calls use place)

include h

theorem Calls.out (hplace : place t = p) (huse : use p = .out) :
    s.point t = .outside ∧ s.depth t = 0 := by
  have ht := h t
  rwa [hplace, huse] at ht

theorem Calls.held (hplace : place t = p) (huse : use p = .held) :
    s.point t = .outside ∧ s.depth t = 1 := by
  have ht := h t
  rwa [hplace, huse] at ht

/-- `lock_acquire` has returned. -/
theorem Calls.entered (hplace : place t = p) (huse : use p = .entering)
    (hout : s.point t = .outside) : s.depth t = 1 := by
  have ht := h t
  rw [hplace, huse, hout] at ht
  simpa [LockUse.At, LockPoint.Acquiring] using ht

/-- `lock_release` has returned. -/
theorem Calls.left (hplace : place t = p) (huse : use p = .leaving) (hout : s.point t = .outside) :
    s.depth t = 0 := by
  have ht := h t
  rw [hplace, huse, hout] at ht
  simpa [LockUse.At, LockPoint.Releasing] using ht

theorem Calls.of_others {last : LockSys}
    (hothers : ∀ t, t ≠ s.cur → last.point t = s.point t ∧ last.depth t = s.depth t)
    (hcur : (use p).At (last.point s.cur) (last.depth s.cur)) :
    last.Calls use (update place s.cur p) := by
  intro t
  by_cases htc : t = s.cur
  · rw [htc, update_self]
    exact hcur
  · rw [update_of_ne htc, (hothers t htc).1, (hothers t htc).2]
    exact h t

/-- The current thread goes on, and the lock stays as it is. -/
theorem Calls.go (hcur : (use p).At (s.point s.cur) (s.depth s.cur)) :
    s.Calls use (update place s.cur p) :=
  h.of_others (fun _ _ => ⟨rfl, rfl⟩) hcur

/-- The current thread calls `lock_acquire`. -/
theorem Calls.acquire (hdepth : s.depth s.cur = 0) (hp : use p = .entering) :
    (s.move s.lock .acqTest (s.depth s.cur)).Calls use (update place s.cur p) := by
  refine h.of_others (s.move_others _ _ _) ?_
  simp [hp, LockUse.At, LockPoint.Acquiring, hdepth]

/-- The current thread calls `lock_release`. -/
theorem Calls.release (hdepth : s.depth s.cur = 1) (hp : use p = .leaving) :
    (s.move s.lock .relCheck (s.depth s.cur)).Calls use (update place s.cur p) := by
  refine h.of_others (s.move_others _ _ _) ?_
  simp [hp, LockUse.At, LockPoint.Releasing, hdepth]

/-- A statement of `lock_acquire` or `lock_release`. -/
theorem Calls.stepped (hinv : Inv s) (hin : s.point s.cur ≠ .outside) :
    s.stepped.Calls use place := by
  have hcur := h s.cur
  rw [← Function.update_eq_self s.cur place]
  refine h.of_others (fun _ ht => s.stepped_others ht) ?_
  cases huse : use (place s.cur) with
  | out | held =>
    rw [huse] at hcur
    exact absurd hcur.1 hin
  | entering =>
    rw [huse] at hcur
    exact hinv.acquiring_step (hcur.resolve_right fun hboth => hin hboth.1)
  | leaving =>
    rw [huse] at hcur
    exact (hinv.releasing_step (hcur.resolve_left fun hboth => hin hboth.1)).symm

theorem Calls.spares_lock {out : Nat → Prop} {a : Action}
    (hout : ∀ t, out t → use (place t) = .out) (ha : a.Among out) : s.SparesLock a := by
  cases a with
  | unblock t => exact (h.out rfl (hout t ha)).1
  | exit t => exact h.out rfl (hout t ha)
  | timer | block | yield | start | setIntr => exact trivial

end

end LockSys

end LosKernel.Thread
