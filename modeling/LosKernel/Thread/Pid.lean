import LosKernel.Thread.Lock

/-!
# Process identifiers

After `allocate_pid` of `thread/thread.c` and its callers: `init_thread`, which `thread_start` and
`process_execute` call, and `sys_fork`. A thread that creates another one can be interrupted
between any two steps: the counter is read, written, and read again for the return value after the
lock has been released. `init_thread` writes the new block only, and both lists are changed with
interrupts off, so that part is one step. A `sys_fork` that fails later leaves its pid unused.

`pid_t` has 16 bits. `returned` are the values that calls of `allocate_pid` have returned, in
order.
-/

namespace LosKernel.Thread

open Prog hiding update
open Function (update update_of_ne update_self)

/-- What a thread that creates another one does next. `load` is entered once the lock is held,
`read` once it is released. -/
inductive PidStage where
  | load
  | store (value : Int)
  | release
  | read
  | link
  deriving DecidableEq, Repr

/-- Where a thread is: it creates the thread with the control block `target`, or not. -/
inductive PidPoint where
  | outside
  | creating (target : Nat) (prio : UInt8) (stage : PidStage)
  deriving DecidableEq, Repr

namespace PidPoint

/-- The control block in the making. -/
def target : PidPoint → Option Nat
  | .outside => none
  | .creating target _ _ => some target

/-- The step of the creation that is next. -/
def stage : PidPoint → Option PidStage
  | .outside => none
  | .creating _ _ stage => some stage

/-- The thread has written the counter and has not yet read its return value. -/
def Pending : PidPoint → Prop
  | .creating _ _ .release | .creating _ _ .read => True
  | _ => False

instance (point : PidPoint) : Decidable point.Pending := by
  unfold PidPoint.Pending
  split <;> infer_instance

end PidPoint

/-- The threads with `pid_lock`, the counter, the pids in the control blocks, and where each thread
is. -/
structure PidSys where
  lock : LockSys
  nextPid : Int
  pid : Nat → Int
  point : Nat → PidPoint
  returned : List Int

/-- The current thread. -/
abbrev PidSys.cur (s : PidSys) : Nat := s.lock.sched.cur

namespace PidSys

/-- Run a program of the lock. -/
def onLock {α : Type} (m : Prog Stop LockSys α) : Prog Stop PidSys α :=
  zoom PidSys.lock (fun lock s => { s with lock := lock }) m

/-- Run a program of the scheduler. -/
def onSched {α : Type} (m : Call α) : Prog Stop PidSys α :=
  onLock (LockSys.onSema (SemaState.onSched m))

/-- Thread `me` goes to `point`. -/
def goto (me : Nat) (point : PidPoint) : Prog Stop PidSys Unit :=
  Prog.update fun s => { s with point := update s.point me point }

/-- The next step of the current thread in the creation of another one. -/
def statement : Prog Stop PidSys Unit := do
  let s ← state
  let me := s.cur
  match s.point me with
  | .outside => pure ()
  | .creating target prio .load => goto me (.creating target prio (.store s.nextPid))
  | .creating target prio (.store value) => do
    Prog.update fun s => { s with nextPid := incPid value }
    goto me (.creating target prio .release)
  | .creating target prio .release => do
    goto me (.creating target prio .read)
    onLock (LockSys.exec .release)
  | .creating target prio .read => do
    Prog.update fun s =>
      { s with
        pid := update s.pid target s.nextPid
        returned := s.returned ++ [s.nextPid] }
    goto me (.creating target prio .link)
  | .creating target prio .link => do
    goto me .outside
    onSched (threadStart target prio)

/-- What the threads do: an action of the scheduler, the start of a creation, the next statement
within `lock_acquire` or `lock_release`, the next step of a creation, the failure of a `sys_fork`
that has its pid. -/
inductive Act where
  | sched (a : Action)
  | create (target : Nat) (prio : UInt8)
  | lock
  | statement
  | fail
  deriving DecidableEq, Repr

/-- New threads are the work of `create`. -/
def StartsNone : Action → Prop
  | .start _ _ => False
  | _ => True

/-- When an action can be taken. The page of a new control block is not in use, neither for a thread
nor in a creation. -/
def Enabled (s : PidSys) : Act → Prop
  | .sched a => a.EnabledAmong s.lock.sched (s.point · = .outside) ∧ StartsNone a
  | .create target _ => s.point s.cur = .outside ∧
      s.cur ≠ s.lock.sched.idleThread ∧ target ∉ s.lock.sched.allList ∧
      target ≠ s.lock.sched.mainThread ∧
      ∀ t ∈ s.lock.sched.allList, (s.point t).target ≠ some target
  | .lock => s.lock.point s.cur ≠ .outside
  | .statement => s.point s.cur ≠ .outside ∧ s.lock.point s.cur = .outside
  | .fail => (s.point s.cur).stage = some .link

/-- What an action does. -/
def exec : Act → Prog Stop PidSys Unit
  | .sched a => onSched a.exec
  | .create target prio => do
    let s ← state
    goto s.cur (.creating target prio .load)
    onLock (LockSys.exec .acquire)
  | .lock => onLock LockSys.statement
  | .statement => statement
  | .fail => do
    let s ← state
    goto s.cur .outside

/-- The threads and the counter as a system. -/
def system : System Stop PidSys Act := ⟨Enabled, exec⟩

/-- `thread_init` has created `init`, the main thread and the idle thread, in this order. -/
structure Start (s : PidSys) : Prop where
  lock : s.lock.Start
  nextPid : s.nextPid = 3
  threads : ∃ main init idle, s.lock.sched.allList = [init, main, idle] ∧
    s.pid init = 1 ∧ s.pid main = 2 ∧ s.pid idle = 3
  outside : ∀ t, s.point t = .outside
  returned : s.returned = [1, 2, 3]

/-- What process identifiers promise: the pids of the threads are positive and different, and so are
the values that `allocate_pid` returns. -/
structure PidOk (s : PidSys) : Prop where
  distinct : ∀ t ∈ s.lock.sched.allList, ∀ u ∈ s.lock.sched.allList, s.pid t = s.pid u → t = u
  positive : ∀ t ∈ s.lock.sched.allList, 0 < s.pid t
  once : s.returned.Nodup

/-- No pid is allocated after the largest value of `pid_t`, and the counter is not written while
another thread is between its own write and the read of its return value. -/
def RoomForPid (s : PidSys) : Act → Prop
  | .statement =>
    match s.point s.cur with
    | .creating _ _ (.store value) =>
      value ≠ 32767 ∧ ∀ t ∈ s.lock.sched.allList, ¬(s.point t).Pending
    | _ => True
  | _ => True

end PidSys

/-! ## The invariant -/

/-- How a thread that creates another one uses `pid_lock`. -/
def PidPoint.lockUse : PidPoint → LockUse
  | .outside | .creating _ _ .link => .out
  | .creating _ _ .load => .entering
  | .creating _ _ (.store _) | .creating _ _ .release => .held
  | .creating _ _ .read => .leaving

namespace PidSys

/-- The thread has its pid: it is on the list, or about to be linked. -/
def Named (s : PidSys) (t : Nat) : Prop :=
  t ∈ s.lock.sched.allList ∨ ∃ u prio, s.point u = .creating t prio .link

/-- Where the threads are. -/
structure Control (s : PidSys) : Prop where
  lock : s.lock.Inv
  calls : s.lock.Calls PidPoint.lockUse s.point
  member : ∀ t, s.point t ≠ .outside → t ∈ s.lock.sched.allList
  fresh : ∀ t target, (s.point t).target = some target → target ∉ s.lock.sched.allList ∧
    target ≠ s.lock.sched.mainThread ∧ ∀ u, (s.point u).target = some target → u = t

/-- The pids and the counter. -/
structure Numbers (s : PidSys) : Prop where
  loaded : ∀ t target prio value, s.point t = .creating target prio (.store value) →
    value = s.nextPid
  range : 0 ≤ s.nextPid ∧ s.nextPid ≤ 32767
  onePending : ∀ t u, (s.point t).Pending → (s.point u).Pending → t = u
  pending : ∀ t, (s.point t).Pending → 0 < s.nextPid ∧ s.nextPid ∉ s.returned
  returned : s.returned.Nodup ∧ ∀ v ∈ s.returned, 0 < v ∧ v ≤ s.nextPid
  named : ∀ t, s.Named t → s.pid t ∈ s.returned
  distinct : ∀ t u, s.Named t → s.Named u → s.pid t = s.pid u → t = u

/-- The invariant of process identifiers. -/
structure Inv (s : PidSys) : Prop extends Control s, Numbers s

variable {s last : PidSys} {t u target : Nat} {prio : UInt8} {point : PidPoint}

theorem Inv.pid_ok (h : Inv s) : PidOk s where
  distinct := fun t ht u hu => h.distinct t u (.inl ht) (.inl hu)
  positive := fun t ht => (h.returned.2 _ (h.named t (.inl ht))).1
  once := h.returned.1

theorem Start.inv (h : Start s) : Inv s := by
  obtain ⟨hlock, hnext, ⟨main, init, idle, hall, hinit, hmain, hidle⟩, hout, hret⟩ := h
  have hnamed : ∀ t, s.Named t → t = init ∨ t = main ∨ t = idle := by
    rintro t (ht | ⟨u, prio, hu⟩)
    · simpa [hall] using ht
    · simp [hout u] at hu
  refine ⟨⟨hlock.inv, hlock.calls fun t => by rw [hout t]; rfl, fun t ht => absurd (hout t) ht,
    fun t target ht => ?_⟩,
    fun t target prio value ht => ?_, by simp [hnext], fun t u ht => ?_, fun t ht => ?_, ?_,
    fun t ht => ?_, fun t u ht hu heq => ?_⟩
  · simp [hout t, PidPoint.target] at ht
  · simp [hout t] at ht
  · simp [hout t, PidPoint.Pending] at ht
  · simp [hout t, PidPoint.Pending] at ht
  · simp [hret, hnext]
  · rcases hnamed t ht with rfl | rfl | rfl <;> simp [hret, hinit, hmain, hidle]
  · rcases hnamed t ht with rfl | rfl | rfl <;> rcases hnamed u hu with rfl | rfl | rfl <;>
      simp_all

/-! ## Steps -/

theorem Numbers.keep (h : Numbers s) (hnext : last.nextPid = s.nextPid) (hpid : last.pid = s.pid)
    (hret : last.returned = s.returned)
    (hstore : ∀ t target prio value, last.point t = .creating target prio (.store value) →
      s.point t = .creating target prio (.store value) ∨ value = s.nextPid)
    (hpending : ∀ t, (last.point t).Pending → (s.point t).Pending)
    (hnamed : ∀ t, last.Named t → s.Named t) : Numbers last where
  loaded := by
    intro t target prio value ht
    rw [hnext]
    exact (hstore t target prio value ht).elim (h.loaded t target prio value) id
  range := hnext ▸ h.range
  onePending := fun t u ht hu => h.onePending t u (hpending t ht) (hpending u hu)
  pending := by
    intro t ht
    rw [hnext, hret]
    exact h.pending t (hpending t ht)
  returned := by
    rw [hnext, hret]
    exact h.returned
  named := by
    intro t ht
    rw [hpid, hret]
    exact h.named t (hnamed t ht)
  distinct := by
    intro t u ht hu
    rw [hpid]
    exact h.distinct t u (hnamed t ht) (hnamed u hu)

theorem Control.go (h : Control s) (hlock : last.lock.Inv) (hsched : last.lock.sched = s.lock.sched)
    (hpoint : last.point = update s.point s.cur point)
    (hcalls : last.lock.Calls PidPoint.lockUse (update s.point s.cur point))
    (hfresh : ∀ target, point.target = some target → target ∉ s.lock.sched.allList ∧
      target ≠ s.lock.sched.mainThread ∧
      ∀ u, u ≠ s.cur → (s.point u).target ≠ some target) : Control last := by
  have hself : last.point s.cur = point := by rw [hpoint, update_self]
  have hother : ∀ t, t ≠ s.cur → last.point t = s.point t := by
    intro t ht
    rw [hpoint, update_of_ne ht]
  refine ⟨hlock, hpoint ▸ hcalls, fun t ht => ?_, fun t target ht => ?_⟩
  · rw [hsched]
    by_cases htc : t = s.cur
    · rw [htc]
      exact h.lock.sema.sched.curIn
    · exact h.member t (by rwa [hother t htc] at ht)
  · rw [hsched]
    by_cases htc : t = s.cur
    · rw [htc, hself] at ht
      obtain ⟨hnew, hmain, hone⟩ := hfresh target ht
      refine ⟨hnew, hmain, fun u hu => ?_⟩
      by_contra hne
      have huc : u ≠ s.cur := fun heq => hne (heq.trans htc.symm)
      rw [hother u huc] at hu
      exact hone u huc hu
    · rw [hother t htc] at ht
      obtain ⟨hnew, hmain, hone⟩ := h.fresh t target ht
      refine ⟨hnew, hmain, fun u hu => ?_⟩
      by_cases huc : u = s.cur
      · rw [huc, hself] at hu
        exact absurd ht ((hfresh target hu).2.2 t htc)
      · rw [hother u huc] at hu
        exact hone u hu

/-- The target of the current thread is the target of no other. -/
theorem Control.same_target (h : Control s)
    (hcur : (s.point s.cur).target = some target) :
    target ∉ s.lock.sched.allList ∧ target ≠ s.lock.sched.mainThread ∧
      ∀ u, u ≠ s.cur → (s.point u).target ≠ some target := by
  obtain ⟨hnew, hmain, hone⟩ := h.fresh _ target hcur
  exact ⟨hnew, hmain, fun u hu heq => hu (hone u heq)⟩

/-- An action of the scheduler. -/
theorem Inv.sched_inv (h : Inv s) {a : Action} (henabled : Enabled s (.sched a)) :
    Inv { s with lock.sched := s.lock.sched.after a } := by
  obtain ⟨⟨hcur, henabled, hblocks, hspares⟩, hnone⟩ := henabled
  have hlock : LockSys.Enabled s.lock (.sched a) :=
    ⟨hcur.imp_right fun ht => (h.calls.out ht rfl).1, henabled, hblocks,
      h.calls.spares_lock (fun _ ht => by rw [ht]; rfl) hspares⟩
  have hsub : ∀ t, t ∈ (s.lock.sched.after a).allList → t ∈ s.lock.sched.allList := by
    intro t ht
    refine h.lock.sema.sched.mem_of_after_mem ht ?_
    rintro prio rfl
    exact hnone
  refine ⟨⟨h.lock.sched_inv hlock, h.calls, fun t ht => ?_, fun t target ht => ?_⟩,
    h.toNumbers.keep rfl rfl rfl (fun _ _ _ _ ht => .inl ht) (fun _ ht => ht) fun t ht => ?_⟩
  · refine h.lock.sema.sched.after_mem (h.member t ht) ?_
    rintro rfl
    exact ht hspares
  · obtain ⟨hnew, hmain, hone⟩ := h.fresh t target ht
    exact ⟨fun hin => hnew (hsub target hin), by simpa using hmain, hone⟩
  · exact ht.imp_left (hsub t)

/-- A statement of the lock. -/
theorem Inv.lock_inv (h : Inv s) (henabled : Enabled s .lock) :
    Inv { s with lock := s.lock.stepped } := by
  obtain ⟨hall, -, hmain⟩ := s.lock.stepped_threads
  refine ⟨⟨h.lock.stepped_inv, h.calls.stepped h.lock henabled, fun t ht => ?_,
    fun t target ht => ?_⟩,
    h.toNumbers.keep rfl rfl rfl (fun _ _ _ _ ht => .inl ht) (fun _ ht => ht) fun t ht => ?_⟩
  · rw [hall]
    exact h.member t ht
  · rw [hall, hmain]
    exact h.fresh t target ht
  · rw [Named, hall] at ht
    exact ht

theorem on_sched_eq {α : Type} {m : Call α} {value : α} {sched : Sched}
    (h : m s.lock.sched = .done value sched) :
    onSched m s = .done value { s with lock.sched := sched } := by
  simp [onSched, onLock, LockSys.onSema, SemaState.onSched, zoom, h]

theorem Numbers.go (h : Numbers s) (hnext : last.nextPid = s.nextPid) (hpid : last.pid = s.pid)
    (hret : last.returned = s.returned) (hsched : last.lock.sched = s.lock.sched)
    (hpoint : last.point = update s.point s.cur point)
    (hstore : ∀ target prio value, point = .creating target prio (.store value) → value = s.nextPid)
    (hpending : point.Pending → (s.point s.cur).Pending)
    (hlink : ∀ target prio, point ≠ .creating target prio .link) : Numbers last := by
  have hself : last.point s.cur = point := by rw [hpoint, update_self]
  have hother : ∀ t, t ≠ s.cur → last.point t = s.point t := by
    intro t ht
    rw [hpoint, update_of_ne ht]
  refine h.keep hnext hpid hret (fun t target prio value ht => ?_) (fun t ht => ?_) (fun t ht => ?_)
  · by_cases htc : t = s.cur
    · rw [htc, hself] at ht
      exact .inr (hstore target prio value ht)
    · exact .inl (by rwa [hother t htc] at ht)
  · by_cases htc : t = s.cur
    · rw [htc] at ht ⊢
      exact hpending (by rwa [hself] at ht)
    · rwa [hother t htc] at ht
  · rcases ht with ht | ⟨u, prio, hu⟩
    · exact .inl (by rwa [hsched] at ht)
    · by_cases huc : u = s.cur
      · rw [huc, hself] at hu
        exact absurd hu (hlink t prio)
      · exact .inr ⟨u, prio, by rwa [hother u huc] at hu⟩

/-- A creation starts with `lock_acquire`. -/
theorem Inv.create_inv (h : Inv s) (henabled : Enabled s (.create target prio)) : Inv { s with
      lock := s.lock.move s.lock.lock .acqTest (s.lock.depth s.cur)
      point := update s.point s.cur (.creating target prio .load) } := by
  obtain ⟨hout, hidle, hnew, hmain, hone⟩ := henabled
  obtain ⟨hpoint, hdepth⟩ := h.calls.out hout rfl
  refine ⟨h.toControl.go (h.lock.acquire_inv ⟨hpoint,
    hidle⟩ (h.lock.room_to_nest hpoint hdepth)) rfl
    rfl (h.calls.acquire hdepth rfl) fun other hother => ?_,
    h.toNumbers.go rfl rfl rfl rfl rfl (by simp) (by simp [PidPoint.Pending]) (by simp)⟩
  · obtain rfl : target = other := by simpa [PidPoint.target] using hother
    refine ⟨hnew, hmain, fun u _ hu => ?_⟩
    have hin : s.point u ≠ .outside := by
      intro heq
      simp [heq, PidPoint.target] at hu
    exact hone u (h.member u hin) hu

/-- The counter is read. -/
theorem Inv.load_inv (h : Inv s) (hcur : s.point s.cur = .creating target prio .load)
    (hout : s.lock.point s.cur = .outside) :
    Inv { s with
      point := update s.point s.cur (.creating target prio (.store s.nextPid)) } := by
  have hdepth := h.calls.entered hcur rfl hout
  refine ⟨h.toControl.go h.lock rfl rfl (h.calls.go ⟨hout, hdepth⟩) fun other hother => ?_,
    h.toNumbers.go rfl rfl rfl rfl rfl ?_ (by simp [PidPoint.Pending]) (by simp)⟩
  · exact h.same_target (by rw [hcur]; exact hother)
  · intro target prio value heq
    simp only [PidPoint.creating.injEq, PidStage.store.injEq] at heq
    exact heq.2.2.symm

/-- The lock is released. -/
theorem Inv.release_inv (h : Inv s)
    (hcur : s.point s.cur = .creating target prio .release) :
    Inv { s with
      lock := s.lock.move s.lock.lock .relCheck (s.lock.depth s.cur)
      point := update s.point s.cur (.creating target prio .read) } := by
  obtain ⟨hout, hdepth⟩ := h.calls.held hcur rfl
  refine ⟨h.toControl.go (h.lock.release_inv ⟨hout, by simp [hdepth]⟩) rfl rfl
    (h.calls.release hdepth rfl) fun other hother => ?_,
    h.toNumbers.go rfl rfl rfl rfl rfl (by simp) (fun _ => ?_) (by simp)⟩
  · exact h.same_target (by rw [hcur]; exact hother)
  · rw [hcur]
    trivial

/-- The counter is written. -/
theorem Inv.store_inv (h : Inv s) {value : Int}
    (hcur : s.point s.cur = .creating target prio (.store value))
    (hroom : RoomForPid s .statement) :
    Inv { s with
      nextPid := incPid value
      point := update s.point s.cur (.creating target prio .release) } := by
  simp only [RoomForPid, hcur] at hroom
  obtain ⟨hmax, hnone⟩ := hroom
  have hvalue := h.loaded _ _ _ _ hcur
  obtain ⟨hout, hdepth⟩ := h.calls.held hcur rfl
  have hrange := h.range
  have hnext : incPid value = s.nextPid + 1 := by
    rw [incPid, Int.bmod_eq_of_le] <;> omega
  have hnot : ∀ t, ¬(s.point t).Pending := by
    intro t ht
    refine hnone t (h.member t fun heq => ?_) ht
    simp [heq, PidPoint.Pending] at ht
  have hother : ∀ t, t ≠ s.cur →
      update s.point s.cur (.creating target prio .release) t = s.point t :=
    fun t ht => update_of_ne ht _ _
  have hpend : ∀ t, (update s.point s.cur
      (.creating target prio .release) t).Pending → t = s.cur := by
    intro t ht
    by_contra htc
    rw [hother t htc] at ht
    exact hnot t ht
  have hnamed : ∀ t, Named { s with
      point := update s.point s.cur (.creating target prio .release) } t →
        s.Named t := by
    rintro t (ht | ⟨u, prio', hu⟩)
    · exact .inl ht
    · by_cases huc : u = s.cur
      · simp [huc] at hu
      · exact .inr ⟨u, prio', (hother u huc).symm.trans hu⟩
  refine ⟨h.toControl.go h.lock rfl rfl (h.calls.go ⟨hout, hdepth⟩) fun other ht => ?_,
    fun t other prio' value' ht => ?_, ?_, fun t u ht hu => (hpend t ht).trans (hpend u hu).symm,
    fun t _ => ?_, ⟨h.returned.1, fun v hv => ?_⟩, fun t ht => h.named t (hnamed t ht),
    fun t u ht hu => h.distinct t u (hnamed t ht) (hnamed u hu)⟩
  · exact h.same_target (by rw [hcur]; exact ht)
  · -- Another thread that is about to write would hold the lock too.
    by_cases htc : t = s.cur
    · simp [htc] at ht
    · have ht' := (hother t htc).symm.trans ht
      have hheld := h.calls.held ht' rfl
      exact absurd (h.lock.exclusive (by rw [hheld.2]; decide) (by rw [hdepth]; decide)) htc
  · show 0 ≤ incPid value ∧ incPid value ≤ 32767
    omega
  · show 0 < incPid value ∧ incPid value ∉ s.returned
    refine ⟨by omega, fun hin => ?_⟩
    have hle := (h.returned.2 _ hin).2
    omega
  · show 0 < v ∧ v ≤ incPid value
    obtain ⟨hpos, hle⟩ := h.returned.2 v hv
    omega

/-- The counter is read again, and its value returned. -/
theorem Inv.read_inv (h : Inv s) (hcur : s.point s.cur = .creating target prio .read)
    (hout : s.lock.point s.cur = .outside) :
    Inv { s with
      pid := update s.pid target s.nextPid
      returned := s.returned ++ [s.nextPid]
      point := update s.point s.cur (.creating target prio .link) } := by
  have hdepth := h.calls.left hcur rfl hout
  have hpending : (s.point s.cur).Pending := by
    rw [hcur]
    trivial
  obtain ⟨hpos, hnew⟩ := h.pending _ hpending
  generalize hlast : ({ s with
    pid := update s.pid target s.nextPid
    returned := s.returned ++ [s.nextPid]
    point := update s.point s.cur (.creating target prio .link) } : PidSys) = last
  have hother : ∀ t, t ≠ s.cur → last.point t = s.point t := by
    intro t ht
    rw [← hlast]
    exact update_of_ne ht _ _
  have hself : last.point s.cur = .creating target prio .link := by
    rw [← hlast]
    exact update_self _ _ _
  have hnot : ∀ t, ¬(last.point t).Pending := by
    intro t ht
    by_cases htc : t = s.cur
    · simp [htc, hself, PidPoint.Pending] at ht
    · rw [hother t htc] at ht
      exact htc (h.onePending _ _ ht hpending)
  -- A named thread is the target, or it had its pid before.
  have hnamed : ∀ t, last.Named t → t = target ∨
      t ≠ target ∧ s.Named t ∧ last.pid t = s.pid t := by
    intro t ht
    by_cases htt : t = target
    · exact .inl htt
    · refine .inr ⟨htt, ?_, by rw [← hlast]; exact update_of_ne htt _ _⟩
      rcases ht with ht | ⟨u, prio', hu⟩
      · exact .inl (by rw [← hlast] at ht; exact ht)
      · by_cases huc : u = s.cur
        · rw [huc, hself] at hu
          exact absurd (PidPoint.creating.inj hu).1.symm htt
        · exact .inr ⟨u, prio', (hother u huc).symm.trans hu⟩
  have hret : last.returned = s.returned ++ [s.nextPid] := by rw [← hlast]
  have hnext : last.nextPid = s.nextPid := by rw [← hlast]
  have hpid : last.pid target = s.nextPid := by
    rw [← hlast]
    exact update_self _ _ _
  have hpoint : last.point = update s.point s.cur (.creating target prio .link) :=
    by rw [← hlast]
  refine ⟨h.toControl.go (by rw [← hlast]; exact h.lock) (by rw [← hlast]) hpoint
    (by rw [← hlast]; exact h.calls.go ⟨hout, hdepth⟩) fun other ht => ?_,
    fun t other prio' value ht => ?_, by rw [hnext]; exact h.range,
      fun t u ht => absurd ht (hnot t),
    fun t ht => absurd ht (hnot t), ?_, fun t ht => ?_, fun t u ht hu heq => ?_⟩
  · exact h.same_target (by rw [hcur]; exact ht)
  · rw [hnext]
    by_cases htc : t = s.cur
    · simp [htc, hself] at ht
    · exact h.loaded t other prio' value ((hother t htc).symm.trans ht)
  · rw [hret, hnext]
    refine ⟨List.nodup_append.2 ⟨h.returned.1, List.nodup_singleton _, fun v hv w hw heq => ?_⟩,
      fun v hv => ?_⟩
    · rw [List.mem_singleton.1 hw] at heq
      exact hnew (heq ▸ hv)
    · rcases List.mem_append.1 hv with hv | hv
      · exact h.returned.2 v hv
      · rw [List.mem_singleton.1 hv]
        exact ⟨hpos, le_refl _⟩
  · rw [hret]
    rcases hnamed t ht with rfl | ⟨-, ht', hsame⟩
    · simp [hpid]
    · rw [hsame]
      exact List.mem_append_left _ (h.named t ht')
  · rcases hnamed t ht with rfl | ⟨htt, ht', hsame⟩ <;> rcases hnamed u hu with rfl |
      ⟨hut, hu', hsame'⟩
    · rfl
    · rw [hpid, hsame'] at heq
      exact absurd (heq ▸ h.named u hu') hnew
    · rw [hpid, hsame] at heq
      exact absurd (heq ▸ h.named t ht') hnew
    · rw [hsame, hsame'] at heq
      exact h.distinct t u ht' hu' heq

/-- The new block is linked in the lists. -/
theorem Inv.link_inv (h : Inv s) (hcur : s.point s.cur = .creating target prio .link) :
    Inv { s with
      lock.sched := s.lock.sched.after (.start target prio)
      point := update s.point s.cur .outside } := by
  have hcall := h.calls.out hcur rfl
  obtain ⟨hnew, hmain, hone⟩ := h.same_target (congrArg PidPoint.target hcur)
  have hother : ∀ t, t ≠ s.cur →
      update s.point s.cur .outside t = s.point t :=
    fun t ht => update_of_ne ht _ _
  -- A thread that is in a creation now was there before, and it is not the current one.
  have hback : ∀ t point, update s.point s.cur .outside t = point →
      point ≠ .outside → t ≠ s.cur ∧ s.point t = point := by
    intro t point ht hne
    have htc : t ≠ s.cur := by
      rintro rfl
      rw [update_self] at ht
      exact hne ht.symm
    exact ⟨htc, (hother t htc).symm.trans ht⟩
  have htarget : ∀ t other, (update s.point s.cur .outside t).target = some other →
      t ≠ s.cur ∧ (s.point t).target = some other := by
    intro t other ht
    have hne : update s.point s.cur .outside t ≠ .outside := by
      intro heq
      simp [heq, PidPoint.target] at ht
    obtain ⟨htc, hsame⟩ := hback t _ rfl hne
    exact ⟨htc, by rw [hsame, ht]⟩
  refine ⟨⟨h.lock.sched_inv ⟨.inr hcall.1, ⟨hnew, hmain⟩, trivial, trivial⟩, h.calls.go hcall,
    fun t ht => ?_, fun t other ht => ?_⟩, h.toNumbers.keep rfl rfl rfl (fun t _ _ _ ht => ?_)
    (fun t ht => ?_) fun t ht => ?_⟩
  · refine List.mem_append_left _ (h.member t fun heq => ?_)
    exact ht ((hback t _ rfl ht).2.symm.trans heq)
  · obtain ⟨htc, ht'⟩ := htarget t other ht
    obtain ⟨hnew', hmain', hone'⟩ := h.fresh t other ht'
    refine ⟨fun hin => ?_, hmain', fun u hu => hone' u (htarget u other hu).2⟩
    rcases List.mem_append.1 hin with hin | hin
    · exact hnew' hin
    · rw [List.mem_singleton.1 hin] at ht'
      exact hone t htc ht'
  · exact .inl (hback t _ ht (by simp)).2
  · by_cases htc : t = s.cur
    · simp [htc, PidPoint.Pending] at ht
    · exact (hother t htc) ▸ ht
  · rcases ht with ht | ⟨u, prio', hu⟩
    · rcases List.mem_append.1 ht with ht | ht
      · exact .inl ht
      · rw [List.mem_singleton.1 ht]
        exact .inr ⟨_, prio, hcur⟩
    · exact .inr ⟨u, prio', (hback u _ hu (by simp)).2⟩

/-- `sys_fork` fails, and its pid is not used. -/
theorem Inv.fail_inv (h : Inv s) (hcur : (s.point s.cur).stage = some .link) :
    Inv { s with point := update s.point s.cur .outside } := by
  cases hpoint : s.point s.cur with
  | outside => simp [hpoint, PidPoint.stage] at hcur
  | creating target prio stage =>
    obtain rfl : stage = .link := by simpa [hpoint, PidPoint.stage] using hcur
    refine ⟨h.toControl.go h.lock rfl rfl (h.calls.go (h.calls.out hpoint rfl)) ?_,
      h.toNumbers.go rfl rfl rfl rfl rfl (by simp) (by simp [PidPoint.Pending]) (by simp)⟩
    simp [PidPoint.target]

/-! ## Runs -/

/-- Every step of a creation succeeds and keeps the invariant. -/
theorem Inv.statement_spec (h : Inv s) (henabled : Enabled s .statement)
    (hroom : RoomForPid s .statement) :
    wp never statement s fun _ last => Inv last := by
  obtain ⟨hin, hout⟩ := henabled
  simp only [statement, wp_bind, wp_state]
  cases hpoint : s.point s.cur with
  | outside => exact absurd hpoint hin
  | creating target prio stage =>
    cases stage with
    | load => exact h.load_inv hpoint hout
    | store value => exact h.store_inv hpoint hroom
    | release =>
      simp only [goto, onLock, wp_bind, wp_update, wp_zoom]
      exact (wp_of_done s.lock.exec_release_eq).2 (h.release_inv hpoint)
    | read => exact h.read_inv hpoint hout
    | link =>
      obtain ⟨hnew, hmain, -⟩ := h.same_target (congrArg PidPoint.target hpoint)
      have hstart := h.lock.sema.sched.thread_start_eq hnew hmain prio
      exact Iff.mpr (wp_of_done (on_sched_eq hstart)) (h.link_inv hpoint)

/-- Every action succeeds and keeps the invariant. -/
theorem Inv.exec_spec (h : Inv s) {a : Act} (henabled : Enabled s a) (hroom : RoomForPid s a) :
    wp never (exec a) s fun _ last => Inv last := by
  cases a with
  | sched a =>
    have hdone := h.lock.sema.sched.exec_eq henabled.1.2.1 henabled.1.2.2.1
    exact (wp_of_done (on_sched_eq hdone)).2 (h.sched_inv henabled)
  | create target prio =>
    simp only [exec, goto, onLock, wp_bind, wp_state, wp_update, wp_zoom]
    exact (wp_of_done s.lock.exec_acquire_eq).2 (h.create_inv henabled)
  | lock =>
    simp only [exec, onLock, wp_zoom]
    exact (wp_of_done h.lock.statement_eq).2 (h.lock_inv henabled)
  | statement => exact h.statement_spec henabled hroom
  | fail => exact h.fail_inv henabled

/-- In every state that is reached without exhausting `pid_t` and without a write of the counter
between another write and its read, pids are positive and different. -/
theorem pid_ok_of_run (hstart : Start s) (hrun : system.Run RoomForPid s last) : PidOk last := by
  have hinv := System.Run.invariant (fun _ _ h henabled hroom =>
    wp_of_never (h.exec_spec henabled hroom)) hrun hstart.inv
  exact hinv.pid_ok

instance : (a : Action) → Decidable (StartsNone a)
  | .timer | .block _ | .unblock _ | .yield | .start _ _ | .exit _ | .setIntr _ => by
    unfold StartsNone
    infer_instance

instance (s : PidSys) (a : Act) : Decidable (system.Enabled s a) := by
  cases a <;> dsimp only [system, Enabled] <;> infer_instance

instance (s : PidSys) : (a : Act) → Decidable (RoomForPid s a)
  | .statement =>
    match h : s.point s.cur with
    | .creating _ _ (.store value) =>
      decidable_of_iff (value ≠ 32767 ∧ ∀ t ∈ s.lock.sched.allList, ¬(s.point t).Pending)
        (by simp only [RoomForPid, h])
    | .outside | .creating _ _ .load | .creating _ _ .release | .creating _ _ .read |
      .creating _ _ .link => isTrue (by simp only [RoomForPid, h])
  | .sched _ | .create _ _ | .lock | .fail => isTrue trivial

/-- The state after `thread_init` with three control blocks. -/
def three : PidSys where
  lock := LockSys.three
  nextPid := 3
  pid := fun t => if t = 0xc0100000 then 1 else if t = 0xc009e000 then 2 else 3
  point := fun _ => .outside
  returned := [1, 2, 3]

theorem three_start : Start three :=
  ⟨LockSys.three_start, rfl, ⟨0xc009e000, 0xc0100000, 0xc0101000, rfl, rfl, rfl, rfl⟩,
  fun _ => rfl, rfl⟩

/-- The calls of one creation up to the release of the lock. -/
def upToRelease (target : Nat) : List Act :=
  .create target 31 :: List.replicate 5 .lock ++ [.statement, .statement, .statement] ++
    List.replicate 6 .lock

/-- The main thread creates two threads. -/
theorem pid_ok_two : ∃ last, system.Run RoomForPid three last ∧
    last.lock.sched.allList.map last.pid = [1, 2, 3, 4, 5] ∧ PidOk last := by
  obtain ⟨last, hrun, hpids⟩ := system.exists_run_of_follow RoomForPid
    (upToRelease 0xc0102000 ++ [.statement, .statement] ++ upToRelease 0xc0103000 ++
      [.statement, .statement]) three
    (fun s => s.lock.sched.allList.map s.pid = [1, 2, 3, 4, 5]) (by decide)
  exact ⟨last, hrun, hpids, pid_ok_of_run three_start hrun⟩

/-- The main thread is interrupted after it has released the lock; `init` creates a thread, and both
creations return the pid 5. -/
theorem pid_read_late : ∃ last, system.Run (fun _ _ => True) three last ∧ ¬PidOk last := by
  obtain ⟨last, hrun, hfirst, hsecond, hsame⟩ := system.exists_run_of_follow (fun _ _ => True)
    (.sched (.setIntr true) :: upToRelease 0xc0102000 ++ List.replicate 32 (.sched .timer) ++
      upToRelease 0xc0103000 ++ [.statement, .statement, .sched .yield, .sched (.block .blocked),
      .statement, .statement]) three
    (fun s => 0xc0102000 ∈ s.lock.sched.allList ∧ 0xc0103000 ∈ s.lock.sched.allList ∧
      s.pid 0xc0102000 = s.pid 0xc0103000) (by decide +kernel)
  refine ⟨last, hrun, fun hok => ?_⟩
  exact absurd (hok.distinct _ hfirst _ hsecond hsame) (by decide)

end PidSys

end LosKernel.Thread
