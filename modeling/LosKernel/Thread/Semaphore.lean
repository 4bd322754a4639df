import LosKernel.Thread.Bystander

/-!
# Semaphores

After `sema_down` and `sema_up` of `thread/sync.c`. Both run with interrupts off, so another
thread runs in between only where `sema_down` blocks. `semaTry` is one pass through the loop of
`sema_down`.

`SemaInv` says where the threads are that have been blocked in `sema_down`. Those on the list of
waiters are blocked; the others have been woken up and have not yet looked at the value again. If
the semaphore is free while threads wait, then there is such a woken thread.
-/

namespace LosKernel.Thread

open Prog

variable {down' down : Nat → Prop} {last : Sched} {t : Nat}

/-- `Semaphore`. -/
structure Semaphore where
  value : UInt8
  waiters : List Nat

/-- The scheduler and one semaphore. -/
structure SemaState where
  sched : Sched
  sema : Semaphore

namespace SemaState

/-- Run a program of the scheduler. -/
def onSched {α : Type} (m : Call α) : Prog Stop SemaState α :=
  zoom SemaState.sched (fun sched s => { s with sched := sched }) m

end SemaState

open SemaState

/-- One pass through the loop of `sema_down`; `true` if the semaphore has been taken. -/
def semaTry : Prog Stop SemaState Bool := do
  let s ← state
  if s.sema.value = 0 then
    assert (s.sched.cur ∉ s.sema.waiters)
    update fun s => { s with sema.waiters := s.sema.waiters ++ [s.sched.cur] }
    onSched (threadBlock .blocked)
    pure false
  else
    update fun s => { s with sema.value := s.sema.value - 1 }
    let s ← state
    assert (s.sema.value = 0)
    pure true

/-- `sema_up`. -/
def semaUp : Prog Stop SemaState Unit := do
  let oldStatus ← onSched intrDisable
  let s ← state
  assert (s.sema.value = 0)
  match s.sema.waiters with
  | [] => pure ()
  | threadBlocked :: rest =>
    update fun s => { s with sema.waiters := rest }
    onSched (threadUnblock threadBlocked)
  update fun s => { s with sema.value := s.sema.value + 1 }
  let s ← state
  assert (s.sema.value = 1)
  onSched (intrSetStatus oldStatus)

variable {s : SemaState}

/-! ## The invariant -/

/-- The threads in `down` have been blocked in `sema_down` and have not left it. -/
structure SemaInv (s : SemaState) (down : Nat → Prop) : Prop where
  sched : SchedInv s.sched
  binary : s.sema.value = 0 ∨ s.sema.value = 1
  nodup : s.sema.waiters.Nodup
  member : ∀ t, down t → t ∈ s.sched.allList ∧ t ≠ s.sched.idleThread ∧
    (s.sched.tcb t).oldStatus = false
  waiting : ∀ t ∈ s.sema.waiters, down t ∧ s.sched.status t = .blocked
  woken : ∀ t, down t → t ∉ s.sema.waiters →
    s.sched.status t = .ready ∨ t = s.sched.cur ∧ s.sched.intr = false
  free : s.sema.value = 1 → s.sema.waiters ≠ [] → ∃ t, down t ∧ t ∉ s.sema.waiters

/-- The state in which the current thread has taken the semaphore. -/
def SemaState.take (s : SemaState) : SemaState := { s with sema.value := 0 }

/-- The state in which the current thread waits. -/
def SemaState.wait (s : SemaState) : SemaState where
  sched := (s.sched.blockCur .blocked).dispatch
  sema := { s.sema with waiters := s.sema.waiters ++ [s.sched.cur] }

/-- The state after `sema_up`. -/
def SemaState.up (s : SemaState) : SemaState where
  sched :=
    match s.sema.waiters with
    | [] => s.sched
    | first :: _ => s.sched.wake first
  sema := ⟨1, s.sema.waiters.tail⟩

section

variable (h : SemaInv s down)

include h

theorem SemaInv.cur_not_waiting : s.sched.cur ∉ s.sema.waiters := by
  intro hin
  have hblocked := (h.waiting _ hin).2
  rw [h.sched.cur_running] at hblocked
  simp at hblocked

/-- A thread in `sema_down` runs with interrupts off. -/
theorem SemaInv.waits_off (hcur : down s.sched.cur) : s.sched.intr = false := by
  rcases h.woken _ hcur h.cur_not_waiting with hready | ⟨-, hoff⟩
  · simp [h.sched.cur_running] at hready
  · exact hoff

/-- One pass through the loop takes a free semaphore and waits for a taken one. -/
theorem SemaInv.sema_try_eq (hidle : s.sched.cur ≠ s.sched.idleThread) :
    semaTry s = if s.sema.value = 0 then .done false s.wait else .done true s.take := by
  by_cases hvalue : s.sema.value = 0
  · have hblock := h.sched.thread_block_eq (.inl rfl) fun heq => absurd heq hidle
    simp [semaTry, bind_run, hvalue, assert, h.cur_not_waiting, onSched,
      zoom, hblock, SemaState.wait]
  · have hone := h.binary.resolve_left hvalue
    simp [semaTry, bind_run, hone, assert, SemaState.take]

/-- `sema_up` does not stop. -/
theorem SemaInv.sema_up_eq (hvalue : s.sema.value = 0) : semaUp s = .done () s.up := by
  cases hlist : s.sema.waiters with
  | nil =>
    simp [semaUp, bind_run, onSched, zoom, intrDisable, hvalue, assert,
      hlist, intrSetStatus, SemaState.up]
  | cons first rest =>
    have hblocked := (h.waiting first (by simp [hlist])).2
    have hunblock := (h.sched.set_intr false).thread_unblock_eq (.inl hblocked)
    simp [semaUp, bind_run, onSched, zoom, intrDisable, hvalue, assert,
      hlist, SemaState.up, hunblock]
    rfl

/-- The current thread takes the semaphore. -/
theorem SemaInv.take_inv (hdown : ∀ t, down' t ↔ down t ∧ t ≠ s.sched.cur) :
    SemaInv s.take down' where
  sched := h.sched
  binary := .inl rfl
  nodup := h.nodup
  member := fun t ht => h.member t ((hdown t).1 ht).1
  waiting := by
    intro t ht
    obtain ⟨hin, hblocked⟩ := h.waiting t ht
    have hne : t ≠ s.sched.cur := fun heq => h.cur_not_waiting (heq ▸ ht)
    exact ⟨(hdown t).2 ⟨hin, hne⟩, hblocked⟩
  woken := fun t ht => h.woken t ((hdown t).1 ht).1
  free := by
    intro hvalue
    exact absurd hvalue (by simp [SemaState.take])

/-- Where a thread of `down` is after something that it takes no part in. -/
theorem SemaInv.bystander (ht : down t) (hcur : t ≠ s.sched.cur) (hby : Bystander s.sched last t) :
    (t ∈ s.sema.waiters → last.status t = .blocked) ∧
      (t ∉ s.sema.waiters → last.status t = .ready ∨ t = last.cur ∧ last.intr = false) := by
  obtain ⟨-, -, hold⟩ := h.member t ht
  constructor
  · intro hin
    have hblocked := (h.waiting t hin).2
    rcases hby.status with ⟨-, hsame⟩ | ⟨-, hready, -⟩
    · rw [hsame, hblocked]
    · simp [hblocked] at hready
  · intro hout
    have hready := (h.woken t ht hout).resolve_right fun hboth => hcur hboth.1
    rcases hby.status with ⟨-, hsame⟩ | ⟨hnow, -, hintr⟩
    · exact .inl (by rw [hsame, hready])
    · exact .inr ⟨hnow, by rw [hintr, hold]⟩

/-- The current thread waits. -/
theorem SemaInv.wait_inv (hvalue : s.sema.value = 0) (hidle : s.sched.cur ≠ s.sched.idleThread)
    (hoff : s.sched.intr = false) (hdown : ∀ t, down' t ↔ down t ∨ t = s.sched.cur) :
    SemaInv s.wait down' := by
  obtain ⟨-, hstatus, hold⟩ := h.sched.blocked_cur (.inl rfl) hidle
  have hby : ∀ t, down t → t ≠ s.sched.cur → Bystander s.sched s.wait.sched t := by
    intro t ht hcur
    obtain ⟨hin, hne, -⟩ := h.member t ht
    exact h.sched.after_bystander (a := .block .blocked) (.inl rfl)
      (fun heq => absurd heq hidle) hin
      hcur hne trivial
  refine ⟨?_, .inl hvalue, ?_, fun t ht => ?_, fun t ht => ?_, fun t ht hout => ?_, ?_⟩
  · exact (h.sched.block_paused (.inl rfl) fun heq => absurd heq hidle).dispatch_inv
  · refine List.nodup_append.2 ⟨h.nodup, List.nodup_singleton _, fun t ht u hu heq => ?_⟩
    rw [List.mem_singleton.1 hu] at heq
    exact h.cur_not_waiting (heq ▸ ht)
  · by_cases hcur : t = s.sched.cur
    · rw [hcur]
      exact ⟨h.sched.curIn, hidle, hold.trans hoff⟩
    · have ht' := ((hdown t).1 ht).resolve_right hcur
      obtain ⟨hin, hne, hfalse⟩ := h.member t ht'
      exact ⟨hin, hne, (hby t ht' hcur).oldStatus.trans hfalse⟩
  · by_cases hcur : t = s.sched.cur
    · rw [hcur]
      exact ⟨(hdown _).2 (.inr rfl), hstatus⟩
    · have hin : t ∈ s.sema.waiters := by
        rcases List.mem_append.1 ht with hin | hin
        · exact hin
        · exact absurd (List.mem_singleton.1 hin) hcur
      have ht' := (h.waiting t hin).1
      exact ⟨(hdown t).2 (.inl ht'), (h.bystander ht' hcur (hby t ht' hcur)).1 hin⟩
  · have hnot : t ∉ s.sema.waiters := fun hin => hout (List.mem_append_left _ hin)
    have hcur : t ≠ s.sched.cur := fun heq => hout (by simp [SemaState.wait, heq])
    have ht' := ((hdown t).1 ht).resolve_right hcur
    exact (h.bystander ht' hcur (hby t ht' hcur)).2 hnot
  · intro hone
    rw [show s.wait.sema.value = s.sema.value from rfl, hvalue] at hone
    simp at hone

/-- The semaphore is given back. -/
theorem SemaInv.up_inv : SemaInv s.up down := by
  cases hlist : s.sema.waiters with
  | nil =>
    have hup : s.up = { s with sema.value := 1 } := by simp [SemaState.up, hlist]
    rw [hup]
    refine ⟨h.sched, .inr rfl, h.nodup, h.member, h.waiting, h.woken, fun _ hsome => ?_⟩
    exact absurd hlist hsome
  | cons first rest =>
    have hup : s.up = ⟨s.sched.wake first, ⟨1, rest⟩⟩ := by simp [SemaState.up, hlist]
    have hnodup : first ∉ rest ∧ rest.Nodup := by
      have := h.nodup
      rwa [hlist, List.nodup_cons] at this
    obtain ⟨hfirst, hblocked⟩ := h.waiting first (by simp [hlist])
    have hne : ∀ t ∈ rest, t ≠ first := fun t ht heq => hnodup.1 (heq ▸ ht)
    have hother : ∀ t, t ≠ first → (s.sched.wake first).tcb t = s.sched.tcb t :=
      fun t ht => s.sched.wake_tcb_ne ht
    rw [hup]
    refine ⟨?_, .inr rfl, hnodup.2, fun t ht => ?_, fun t ht => ?_, fun t ht hout => ?_,
      fun _ _ => ⟨first, hfirst, hnodup.1⟩⟩
    · exact h.sched.wake_inv (h.member first hfirst).1 (.inl hblocked)
    · obtain ⟨hin, hidle, hold⟩ := h.member t ht
      refine ⟨hin, hidle, ?_⟩
      by_cases hcase : t = first
      · rw [hcase] at hold ⊢
        simpa [Sched.wake] using hold
      · rwa [hother t hcase]
    · obtain ⟨hin, hstatus⟩ := h.waiting t (by simp [hlist, show t ∈ rest from ht])
      exact ⟨hin, by rw [Sched.status, hother t (hne t ht)]; exact hstatus⟩
    · by_cases hcase : t = first
      · exact .inl (by simp [hcase, Sched.wake])
      · have hnot : t ∉ s.sema.waiters := by
          rw [hlist, List.mem_cons]
          exact fun hor => hor.elim hcase hout
        rcases h.woken t ht hnot with hready | hcur
        · exact .inl (by rw [Sched.status, hother t hcase]; exact hready)
        · exact .inr hcur

/-- Something happens that the threads in `sema_down` take no part in. -/
theorem SemaInv.of_bystanders (hlast : SchedInv last)
    (hidle : last.idleThread = s.sched.idleThread) (hcur : ¬down s.sched.cur)
    (hby : ∀ t, down t → Bystander s.sched last t) : SemaInv { s with sched := last } down := by
  have hne : ∀ t, down t → t ≠ s.sched.cur := fun t ht heq => hcur (heq ▸ ht)
  refine ⟨hlast, h.binary, h.nodup, fun t ht => ?_, fun t ht => ?_, fun t ht hout => ?_, h.free⟩
  · obtain ⟨-, hnot, hold⟩ := h.member t ht
    exact ⟨(hby t ht).mem, by rwa [hidle], (hby t ht).oldStatus.trans hold⟩
  · have ht' := (h.waiting t ht).1
    exact ⟨ht', (h.bystander ht' (hne t ht') (hby t ht')).1 ht⟩
  · exact (h.bystander ht (hne t ht) (hby t ht)).2 hout

/-- An action of the scheduler that leaves the threads in `sema_down` alone. -/
theorem SemaInv.after_inv {a : Action} (henabled : a.Enabled s.sched)
    (hblocks : IdleBlocks s.sched a) (hcur : ¬down s.sched.cur)
    (hspares : ∀ t, down t → a.Spares t) :
    SemaInv { s with sched := s.sched.after a } down := by
  refine h.of_bystanders (h.sched.after_inv henabled hblocks) (Sched.after_idle_thread _ _) hcur ?_
  intro t ht
  obtain ⟨hin, hidle, -⟩ := h.member t ht
  exact h.sched.after_bystander henabled hblocks hin (fun heq => hcur (heq ▸ ht)) hidle
    (hspares t ht)

theorem SemaInv.congr (hdown : ∀ t, down' t ↔ down t) : SemaInv s down' := by
  rwa [show down' = down from funext fun t => propext (hdown t)]

end

/-! ## Threads that use one semaphore -/

/-- Where a thread is: outside of `sema_down`, or in its loop with the interrupt status
it has saved. -/
inductive SemaPhase where
  | outside
  | down (oldStatus : Bool)
  deriving DecidableEq, Repr

/-- The threads, the semaphore and where each thread is. -/
structure SemaSys extends SemaState where
  phase : Nat → SemaPhase

namespace SemaSys

/-- Run a program of the semaphore. -/
def onSema {α : Type} (m : Prog Stop SemaState α) : Prog Stop SemaSys α :=
  zoom SemaSys.toSemaState (fun base s => { s with toSemaState := base }) m

/-- Thread `me` goes to `phase`. -/
def goto (me : Nat) (phase : SemaPhase) : Prog Stop SemaSys Unit :=
  update fun s => { s with phase := Function.update s.phase me phase }

/-- The loop of `sema_down` up to where it blocks, or the loop and the rest of `sema_down`. -/
def semaDownLoop (me : Nat) (oldStatus : Bool) : Prog Stop SemaSys Unit := do
  goto me (.down oldStatus)
  let taken ← onSema semaTry
  when (taken = true) do
    onSema (onSched (intrSetStatus oldStatus))
    goto me .outside

/-- What the threads do: an action of the scheduler, a call of `sema_down`, the rest of that call
after the thread has been blocked, a call of `sema_up`. -/
inductive Act where
  | sched (a : Action)
  | down
  | again
  | up
  deriving DecidableEq, Repr

/-- When an action can be taken. The idle thread uses no semaphore. -/
def Enabled (s : SemaSys) : Act → Prop
  | .sched a => a.EnabledAmong s.sched (s.phase · = .outside)
  | .down => s.phase s.sched.cur = .outside ∧ s.sched.cur ≠ s.sched.idleThread
  | .again => s.phase s.sched.cur ≠ .outside
  | .up => s.phase s.sched.cur = .outside ∧ s.sema.value = 0

/-- What an action does. -/
def exec : Act → Prog Stop SemaSys Unit
  | .sched a => onSema (onSched a.exec)
  | .down => do
    let s ← state
    let oldStatus ← onSema (onSched intrDisable)
    semaDownLoop s.sched.cur oldStatus
  | .again => do
    let s ← state
    match s.phase s.sched.cur with
    | .outside => pure ()
    | .down oldStatus => semaDownLoop s.sched.cur oldStatus
  | .up => onSema semaUp

/-- The threads and the semaphore as a system. -/
def system : System Stop SemaSys Act := ⟨Enabled, exec⟩

/-- The threads have been started, and `sema_init` has been called with 0 or 1. -/
structure Start (s : SemaSys) : Prop where
  booted : Booted s.sched
  value : s.sema.value = 0 ∨ s.sema.value = 1
  waiters : s.sema.waiters = []
  outside : ∀ t, s.phase t = .outside

/-- The invariant of the system. -/
def Inv (s : SemaSys) : Prop := SemaInv s.toSemaState fun t => s.phase t ≠ .outside

variable {s : SemaSys}

theorem Start.inv (h : Start s) : Inv s := by
  refine ⟨booted_inv h.booted, h.value, by simp [h.waiters], fun t ht => ?_, fun t ht => ?_,
    fun t ht => ?_, fun _ hsome => absurd h.waiters hsome⟩
  · exact absurd (h.outside t) ht
  · simp [h.waiters] at ht
  · exact absurd (h.outside t) ht

theorem Inv.sema_down_loop (h : Inv s) (hidle : s.sched.cur ≠ s.sched.idleThread)
    (hoff : s.sched.intr = false) (oldStatus : Bool) :
    wp never (semaDownLoop s.sched.cur oldStatus) s fun _ last => Inv last := by
  have htry := SemaInv.sema_try_eq h hidle
  simp only [semaDownLoop, goto, onSema, wp_bind, wp_update, wp_zoom]
  by_cases hvalue : s.sema.value = 0
  · rw [if_pos hvalue] at htry
    rw [wp_of_done htry, wp_when]
    refine ⟨by simp, fun _ => ?_⟩
    exact SemaInv.wait_inv h hvalue hidle hoff fun t => by
      by_cases h : t = s.sched.cur <;> simp [h]
  · rw [if_neg hvalue] at htry
    rw [wp_of_done htry, wp_when]
    refine ⟨fun _ => ?_, by simp⟩
    have htake : SemaInv s.toSemaState.take fun t => s.phase t ≠ .outside ∧ t ≠ s.sched.cur :=
      SemaInv.take_inv h fun _ => Iff.rfl
    have hset := htake.after_inv (a := .setIntr oldStatus) trivial trivial (fun hcur => hcur.2 rfl)
      fun _ _ => trivial
    refine hset.congr fun t => ?_
    show Function.update (Function.update s.phase _ (.down oldStatus)) _ .outside t ≠ .outside ↔ _
    by_cases h : t = s.sched.cur <;> simp [h]

/-- Every action succeeds and keeps the invariant. -/
theorem Inv.exec_spec (h : Inv s) {a : Act} (henabled : Enabled s a) :
    wp never (exec a) s fun _ last => Inv last := by
  cases a with
  | sched a =>
    obtain ⟨hcur, henabled, hblocks, hspares⟩ := henabled
    have hout : ¬s.phase s.sched.cur ≠ .outside := by
      rcases hcur with rfl | hcur
      · exact fun hdown => absurd henabled (by simp [Action.Enabled, SemaInv.waits_off h hdown])
      · exact not_not.2 hcur
    simp only [exec, onSema, onSched, wp_zoom]
    rw [wp_of_done (h.sched.exec_eq henabled hblocks)]
    exact SemaInv.after_inv h henabled hblocks hout fun _ ht => hspares.spares ht
  | down =>
    obtain ⟨hcur, hidle⟩ := henabled
    have hoff := SemaInv.after_inv h (a := .setIntr false) trivial trivial (not_not.2 hcur)
      fun _ _ => trivial
    simp only [exec, wp_bind]
    exact Inv.sema_down_loop (s := { s with sched.intr := false }) hoff hidle rfl _
  | again =>
    have hidle := (h.member _ henabled).2.1
    have hoff : s.sched.intr = false := SemaInv.waits_off h henabled
    simp only [exec, wp_bind, wp_state]
    cases hphase : s.phase s.sched.cur with
    | outside => exact absurd hphase henabled
    | down oldStatus => exact h.sema_down_loop hidle hoff oldStatus
  | up =>
    simp only [exec, onSema, wp_zoom]
    rw [wp_of_done (SemaInv.sema_up_eq h henabled.2)]
    exact SemaInv.up_inv h

/-- No wake-up is lost: a thread that is blocked in `sema_down` waits on the list of the semaphore
and on no other, and if the semaphore is free while threads wait, then one of those that `sema_up`
has removed from the list is ready to look at the value again. -/
structure NoLostWakeup (s : SemaSys) : Prop where
  queued : ∀ t, s.phase t ≠ .outside → s.sched.status t = .blocked →
    s.sema.waiters.count t = 1 ∧ t ∉ s.sched.readyList
  onTheWay : s.sema.value = 1 → s.sema.waiters ≠ [] →
    ∃ t, s.phase t ≠ .outside ∧ t ∉ s.sema.waiters ∧ s.sched.status t = .ready

theorem Inv.no_lost_wakeup (h : Inv s) (hintr : s.sched.intr = true) : NoLostWakeup s where
  queued := by
    intro t ht hblocked
    have hin : t ∈ s.sema.waiters := by
      by_contra hout
      rcases h.woken t ht hout with hready | ⟨-, hoff⟩
      · simp [hblocked] at hready
      · simp [hintr] at hoff
    exact ⟨List.count_eq_one_of_mem h.nodup hin, h.sched.not_ready (.inl hblocked)⟩
  onTheWay := by
    intro hvalue hsome
    obtain ⟨t, ht, hout⟩ := h.free hvalue hsome
    have hready := (h.woken t ht hout).resolve_right fun hboth => by simp [hintr] at hboth
    exact ⟨t, ht, hout, hready⟩

/-- In every state with interrupts enabled that threads using a semaphore reach, no
wake-up is lost. -/
theorem no_lost_wakeup_of_run {last : SemaSys} (hstart : Start s)
    (hrun : system.Run (fun _ _ => True) s last) (hintr : last.sched.intr = true) :
    NoLostWakeup last := by
  have hinv := System.Run.invariant (fun _ _ h henabled _ =>
    wp_of_never (h.exec_spec henabled)) hrun hstart.inv
  exact hinv.no_lost_wakeup hintr

instance (s : SemaSys) (a : Act) : Decidable (system.Enabled s a) := by
  cases a <;> dsimp only [system, Enabled] <;> infer_instance

/-- A free semaphore after the start of the threads. -/
def three : SemaSys := ⟨⟨Sched.three, ⟨1, []⟩⟩, fun _ => .outside⟩

theorem three_start : Start three := ⟨three_booted, .inr rfl, rfl, fun _ => rfl⟩

/-- The main thread takes the semaphore, two more threads wait for it, and the main
thread frees it. -/
theorem no_lost_wakeup_two : ∃ last, system.Run (fun _ _ => True) three last ∧
    last.sema.value = 1 ∧ last.sema.waiters = [0xc0102000] ∧ NoLostWakeup last := by
  obtain ⟨last, hrun, hvalue, hwaiters, hintr⟩ := system.exists_run_of_follow (fun _ _ => True)
    [.down, .sched (.setIntr true), .sched (.start 0xc0102000 31), .sched .yield, .down,
      .sched (.block .blocked), .down, .up] three
    (fun s => s.sema.value = 1 ∧ s.sema.waiters = [0xc0102000] ∧ s.sched.intr = true) (by decide)
  exact ⟨last, hrun, hvalue, hwaiters, no_lost_wakeup_of_run three_start hrun hintr⟩

end SemaSys

end LosKernel.Thread
