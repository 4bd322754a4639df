import LosKernel.Fs.RefExact
import LosKernel.Userprog.ForkExit

/-!
# Shared descriptors

A fork shares the slots of `file_table` between parent and child. `sys_close` clears the slot, so it
takes the file away from every process that shares it. `fds_valid_of_run` says that descriptors stay
valid in every run in which no process closes a slot that another live process holds.
-/

namespace LosKernel

open Prog
open Function (update_of_ne update_self)
open Kernel (booted)

variable {r fd g : Int} {s last : Kernel} {q p : Ptr} {path : CStr} {flags : UInt32} {idx : Nat}
  {origin : Ptr → Nat → Option Ptr}

/-- The descriptor `fd` of the live process `p` is open on `g`. -/
def OpenFd (s : Kernel) (p : Ptr) (fd : Nat) (g : Int) : Prop :=
  ∃ task, s.tasks p = some task ∧ task.status ≠ .hanging ∧ 3 ≤ fd ∧ fd < 8 ∧ task.fd fd = g ∧ g ≠ -1

/-- The invariant of the runs. -/
structure FdsOk (s : Kernel) (origin : Ptr → Nat → Option Ptr) : Prop where
  refs : ∃ ext, RefsOk ext s
  fresh : ∀ p, s.heap.requests < p → s.tasks p = none
  held : ∀ p fd g, OpenFd s p fd g → ∃ (idx : Nat) (q : Ptr), g = idx ∧ idx < maxFileOpen ∧
    (s.fileTable idx).fdInode = some q ∧ origin p fd = some q
  distinct : ∀ p fd fd' g, OpenFd s p fd g → OpenFd s p fd' g → fd = fd'

/-- The system calls that open, close, share and drop descriptors. -/
def FdCall : Request → Prop
  | .openFile _ _ | .closeFile _ | .fork | .exit => True
  | _ => False

/-- No other live process holds the slot of the descriptor `fd` of process `p`. -/
def NotShared (s : Kernel) (p : Ptr) (fd : Nat) : Prop :=
  ∀ g, OpenFd s p fd g → ∀ p' fd', p' ≠ p → ¬OpenFd s p' fd' g

/-- The call closes no slot that another live process holds. -/
def ClosesOwn (s : Kernel) (p : Ptr) : Request → Prop
  | .closeFile fd => NotShared s p fd.toNat
  | .exit => ∀ fd, NotShared s p fd
  | _ => True

/-- The inode in the slot of the descriptor `fd`. -/
def fdFile (s : Kernel) (p : Ptr) (fd : Nat) : Option Ptr :=
  (s.tasks p).bind fun task => (s.fileTable (task.fd fd).toNat).fdInode

/-- What the descriptors were opened on after a call of process `p`: `sys_open` opens one, and a new
process inherits those of its parent. -/
def originAfter (s last : Kernel) (p : Ptr) (request : Request) (answer : Answer)
    (origin : Ptr → Nat → Option Ptr) (q : Ptr) (fd : Nat) : Option Ptr :=
  match request, answer with
  | .openFile _ _, .int r => if q = p ∧ (fd : Int) = r then fdFile last p fd else origin q fd
  | .fork, _ => if s.tasks q = none then origin p fd else origin q fd
  | _, _ => origin q fd

/-- After a close, the closed descriptor is the only one that is gone. -/
theorem Closed.open_fd (h : Closed s fd r last) (hfd : 2 < fd) {fd' : Nat}
    (hopen : OpenFd last q fd' g) : OpenFd s q fd' g ∧ ¬(q = s.cur ∧ fd' = fd.toNat) := by
  cases h with
  | ignored hle hr hlast => omega
  | closed task idx p inode mid htask _ hslot hidx hfile hinode hclose hr hlast =>
    obtain ⟨task', htask', hlive, hlo, hhi, hg, hne⟩ := hopen
    rw [hlast] at htask'
    dsimp only at htask'
    by_cases hq : q = s.cur
    · subst hq
      rw [update_self] at htask'
      obtain rfl := Option.some.inj htask'
      by_cases hfd' : fd' = fd.toNat
      · subst hfd'
        rw [fd_set_fd_same hhi] at hg
        exact absurd hg.symm hne
      · rw [fd_set_fd_ne hfd'] at hg
        exact ⟨⟨task, htask, hlive, hlo, hhi, hg, hne⟩, fun hsame => hfd' hsame.2⟩
    · rw [update_of_ne hq] at htask'
      exact ⟨⟨task', htask', hlive, hlo, hhi, hg, hne⟩, fun hsame => hq hsame.1⟩

theorem Closed.cur_live (h : Closed s fd r last) (hlive : Live s s.cur) :
    last.cur = s.cur ∧ Live last last.cur := by
  cases h with
  | ignored hle hr hlast =>
    subst hlast
    exact ⟨rfl, hlive⟩
  | closed task idx p inode mid htask hfd hslot hidx hfile hinode hclose hr hlast =>
    obtain ⟨task', htask', hlive⟩ := hlive
    obtain rfl : task = task' := Option.some.inj (htask.symm.trans htask')
    have hcur : mid.cur = s.cur := by rw [hclose.frame]
    subst hlast
    exact ⟨hcur, task.setFd fd.toNat (-1), by simp [hcur], hlive⟩

namespace FdsOk

/-- A step that does not open descriptors and leaves the slots of the open ones alone. -/
theorem of_open_fd (h : FdsOk s origin) (hrefs : ∃ ext, RefsOk ext last)
    (hfresh : ∀ p, last.heap.requests < p → last.tasks p = none)
    (hopen : ∀ p fd g, OpenFd last p fd g → OpenFd s p fd g)
    (hslot : ∀ p fd (idx : Nat), OpenFd last p fd idx → ∀ q, (s.fileTable idx).fdInode = some q →
      (last.fileTable idx).fdInode = some q) : FdsOk last origin where
  refs := hrefs
  fresh := hfresh
  held := by
    intro p fd g hg
    obtain ⟨idx, q, rfl, hidx, hq, horigin⟩ := h.held p fd g (hopen p fd g hg)
    exact ⟨idx, q, rfl, hidx, hslot p fd idx hg q hq, horigin⟩
  distinct := fun p fd fd' g hg hg' => h.distinct p fd fd' g (hopen _ _ _ hg) (hopen _ _ _ hg')

/-- A slot that is free is not held by a descriptor. -/
theorem ne_of_free (h : FdsOk s origin) {fd idx' : Nat} (hopen : OpenFd s p fd idx')
    (hfree : (s.fileTable idx).fdInode = none) : idx' ≠ idx := by
  rintro rfl
  obtain ⟨i, q, hi, -, hslot, -⟩ := h.held p fd _ hopen
  obtain rfl : idx' = i := by exact_mod_cast hi
  simp [hfree] at hslot

/-- A call that fills or clears a free slot and leaves the tasks alone. -/
theorem free_slot (h : FdsOk s origin) (hrefs : ∃ ext, RefsOk ext last)
    (hreq : s.heap.requests ≤ last.heap.requests) (htasks : last.tasks = s.tasks)
    (hslots : last.fileTable = s.fileTable ∨ ∃ idx file, (s.fileTable idx).fdInode = none ∧
      last.fileTable = Function.update s.fileTable idx file) : FdsOk last origin := by
  have hopen : ∀ p fd g, OpenFd last p fd g → OpenFd s p fd g := fun p fd g hg => by
    rwa [OpenFd, htasks] at hg
  refine h.of_open_fd hrefs (fun p hp => ?_) hopen fun p fd idx hg q hq => ?_
  · rw [htasks]
    exact h.fresh p (Nat.lt_of_le_of_lt hreq hp)
  · rcases hslots with hsame | ⟨free, file, hfree, hfill⟩
    · rwa [hsame]
    · rwa [hfill, update_of_ne (h.ne_of_free (hopen p fd idx hg) hfree)]

theorem origin_after_failed :
    originAfter s last p (.openFile path flags) (.int (-1)) origin = origin := by
  funext q fd
  simp [originAfter]

/-- A descriptor is entered for a slot that was just filled. -/
theorem install (h : FdsOk s origin) (hrefs : ∃ ext, RefsOk ext last)
    (hreq : s.heap.requests ≤ last.heap.requests) {fd : Nat} {task : Task}
    (htask : s.tasks s.cur = some task) (hfd : 3 ≤ fd ∧ fd < 8) (hidx : idx < maxFileOpen)
    (hfree : (s.fileTable idx).fdInode = none)
    (hfill : last.fileTable = Function.update s.fileTable idx ⟨0, flags, some q⟩)
    (htasks : last.tasks = Function.update s.tasks s.cur (some (task.setFd fd idx))) :
    FdsOk last (originAfter s last s.cur (.openFile path flags) (.int fd) origin) := by
  have hopen : ∀ p fd' g, OpenFd last p fd' g →
      p = s.cur ∧ fd' = fd ∧ g = idx ∨ ¬(p = s.cur ∧ fd' = fd) ∧ OpenFd s p fd' g := by
    intro p fd' g ⟨task', htask', hlive, hlo, hhi, hg, hne⟩
    rw [htasks] at htask'
    by_cases hp : p = s.cur
    · subst hp
      rw [update_self] at htask'
      obtain rfl := Option.some.inj htask'
      by_cases hfd' : fd' = fd
      · subst hfd'
        rw [fd_set_fd_same hhi] at hg
        exact .inl ⟨rfl, rfl, hg.symm⟩
      · rw [fd_set_fd_ne hfd'] at hg
        exact .inr ⟨fun hsame => hfd' hsame.2, task, htask, hlive, hlo, hhi, hg, hne⟩
    · rw [update_of_ne hp] at htask'
      exact .inr ⟨fun hsame => hp hsame.1, task', htask', hlive, hlo, hhi, hg, hne⟩
  have hnew : fdFile last s.cur fd = some q := by
    simp [fdFile, htasks, fd_set_fd_same hfd.2, hfill]
  refine ⟨hrefs, fun p hp => ?_, fun p fd' g hg => ?_, fun p fd₁ fd₂ g h₁ h₂ => ?_⟩
  · have hp' := h.fresh p (Nat.lt_of_le_of_lt hreq hp)
    have hne : p ≠ s.cur := by
      rintro rfl
      simp [htask] at hp'
    rw [htasks, update_of_ne hne]
    exact hp'
  · rcases hopen p fd' g hg with ⟨rfl, rfl, rfl⟩ | ⟨hne, hold⟩
    · exact ⟨idx, q, rfl, hidx, by simp [hfill], by simpa [originAfter] using hnew⟩
    · obtain ⟨i, q', rfl, hi, hslot, horigin⟩ := h.held p fd' g hold
      refine ⟨i, q', rfl, hi, ?_, ?_⟩
      · rwa [hfill, update_of_ne (h.ne_of_free hold hfree)]
      · simpa [originAfter, hne] using horigin
  · rcases hopen p fd₁ g h₁ with ⟨rfl, rfl, rfl⟩ | ⟨hne₁, hold₁⟩
    · rcases hopen s.cur fd₂ _ h₂ with ⟨-, rfl, -⟩ | ⟨-, hold₂⟩
      · rfl
      · exact absurd rfl (h.ne_of_free hold₂ hfree)
    · rcases hopen p fd₂ g h₂ with ⟨rfl, rfl, rfl⟩ | ⟨-, hold₂⟩
      · exact absurd rfl (h.ne_of_free hold₁ hfree)
      · exact h.distinct p fd₁ fd₂ g hold₁ hold₂

theorem opened (h : FdsOk s origin) (hopen : Opened s path flags r last) :
    FdsOk last (originAfter s last s.cur (.openFile path flags) (.int r) origin) := by
  obtain ⟨ext, hrefs⟩ := h.refs
  have hrefs' : ∃ ext, RefsOk ext last := ⟨ext, hrefs.opened hopen⟩
  have hreq := hopen.requests_le
  rcases hopen.tables with ⟨rfl, htasks, hslots⟩ | ⟨idx, q, hslot, -, hfill, hfds⟩
  · rw [origin_after_failed]
    refine h.free_slot hrefs' hreq htasks (hslots.imp_right ?_)
    intro ⟨idx, hslot, hclear⟩
    exact ⟨idx, _, ((find_slot_is_search _).eq_some _ _ hslot).2.2, hclear⟩
  · obtain ⟨-, hidx, hfree⟩ := (find_slot_is_search _).eq_some _ _ hslot
    have hfilled : last.tasks = s.tasks → FdsOk last origin := fun htasks =>
      h.free_slot hrefs' hreq htasks (.inr ⟨idx, _, hfree, hfill⟩)
    rcases hfds with ⟨rfl, htasks⟩ | ⟨task, htask, ⟨-, rfl, htasks⟩ | ⟨fd, hfd, rfl, htasks⟩⟩
    · rw [origin_after_failed]
      exact hfilled htasks
    · rw [origin_after_failed]
      exact hfilled htasks
    · obtain ⟨hlo, hhi, -⟩ := (find_fd_is_search _).eq_some _ _ hfd
      exact h.install hrefs' hreq htask ⟨hlo, hhi⟩ hidx hfree hfill htasks

theorem closed (h : FdsOk s origin) (hcond : NotShared s s.cur fd.toNat) (hlive : Live s s.cur)
    (hclose : Closed s fd r last) : FdsOk last origin := by
  obtain ⟨ext, hrefs⟩ := h.refs
  have hrefs' : ∃ ext, RefsOk ext last := ⟨ext, hrefs.closed hclose⟩
  by_cases hfd : 2 < fd
  · have hopen : ∀ {q fd' g}, OpenFd last q fd' g →
        OpenFd s q fd' g ∧ ¬(q = s.cur ∧ fd' = fd.toNat) := fun hg => hclose.open_fd hfd hg
    cases hclose with
    | ignored hle hr hlast => omega
    | closed task idx p inode mid htask _ hslot hidx hfile hinode hclose hr hlast =>
      obtain ⟨task', htask', hlive⟩ := hlive
      obtain rfl : task = task' := Option.some.inj (htask.symm.trans htask')
      have hown : OpenFd s s.cur fd.toNat idx :=
        ⟨task, htask, hlive, by omega, by omega, hslot, by omega⟩
      refine h.of_open_fd hrefs' (fun q hq => ?_) (fun q fd' g hg => (hopen hg).1)
        fun q fd' i hg p' hp' => ?_
      · have hq' := h.fresh q (by rw [hlast] at hq; exact hclose.requests_eq ▸ hq)
        have hne : q ≠ s.cur := by
          rintro rfl
          simp [htask] at hq'
        rw [hlast]
        simpa [update_of_ne hne] using hq'
      · obtain ⟨hold, hother⟩ := hopen hg
        have hi : i ≠ idx := by
          rintro rfl
          by_cases hq : q = s.cur
          · subst hq
            exact hother ⟨rfl, h.distinct _ _ _ _ hold hown⟩
          · exact hcond _ hown q fd' hq hold
        rw [hlast]
        simpa [update_of_ne hi] using hp'
  · cases hclose with
    | ignored hle hr hlast => exact hlast ▸ h
    | closed task idx p inode mid htask hfd' hslot hidx hfile hinode hclose hr hlast => omega

/-- What a descriptor was opened on matters for existing processes only. -/
theorem congr_origin (h : FdsOk s origin) {origin' : Ptr → Nat → Option Ptr}
    (heq : ∀ q fd, s.tasks q ≠ none → origin' q fd = origin q fd) : FdsOk s origin' := by
  refine ⟨h.refs, h.fresh, fun p fd g hg => ?_, h.distinct⟩
  obtain ⟨idx, q, hidx, hlt, hslot, horigin⟩ := h.held p fd g hg
  obtain ⟨task, htask, -⟩ := hg
  exact ⟨idx, q, hidx, hlt, hslot, (heq p fd (by simp [htask])).trans horigin⟩

theorem forked (answer : Answer) (h : FdsOk s origin) (hlive : Live s s.cur)
    (hfork : Forked s r last) : FdsOk last (originAfter s last s.cur .fork answer origin) := by
  obtain ⟨ext, hrefs⟩ := h.refs
  have horigin : ∀ q fd, s.tasks q ≠ none →
      originAfter s last s.cur .fork answer origin q fd = origin q fd := by
    intro q fd hq
    cases answer <;> simp [originAfter, hq]
  have hinherit : ∀ q fd, s.tasks q = none →
      originAfter s last s.cur .fork answer origin q fd = origin s.cur fd := by
    intro q fd hq
    cases answer <;> simp [originAfter, hq]
  cases hfork with
  | failed hlast hr =>
    have htasks : last.tasks = s.tasks := by rw [hlast.rest]
    have hfiles : last.fileTable = s.fileTable := by rw [hlast.rest]
    have hkept := h.free_slot (hlast.refs ext hrefs) hlast.requests htasks (.inl hfiles)
    exact hkept.congr_origin fun q fd hq => horigin q fd (htasks ▸ hq)
  | forked mid child parent pid hmid hparent hnew hold hr hlast =>
    obtain ⟨ext', hrefs'⟩ := hmid.refs ext hrefs
    have hfiles : mid.fileTable = s.fileTable := by rw [hmid.rest]
    have hchild : s.tasks child = none := h.fresh child hnew
    have hopen : ∀ q fd g, OpenFd last q fd g →
        q = child ∧ OpenFd s s.cur fd g ∨ s.tasks q ≠ none ∧ OpenFd s q fd g := by
      intro q fd g ⟨task, htask, hne, hlo, hhi, hg, hne'⟩
      rw [hlast] at htask
      dsimp only at htask
      by_cases hq : q = child
      · subst hq
        rw [update_self] at htask
        obtain rfl := Option.some.inj htask
        obtain ⟨task', htask', hlive⟩ := hlive
        obtain rfl : parent = task' := Option.some.inj (hparent.symm.trans htask')
        exact .inl ⟨rfl, parent, hparent, hlive, hlo, hhi, hg, hne'⟩
      · rw [update_of_ne hq] at htask
        exact .inr ⟨by simp [htask], task, htask, hne, hlo, hhi, hg, hne'⟩
    have hheld : ∀ q fd g, OpenFd s q fd g → ∃ (idx : Nat) (p : Ptr), g = idx ∧
        idx < maxFileOpen ∧ (last.fileTable idx).fdInode = some p ∧ origin q fd = some p := by
      rw [hlast]
      rw [hfiles]
      exact h.held
    refine ⟨⟨ext', ?_⟩, fun q hq => ?_, fun q fd g hg => ?_, fun q fd fd' g hg hg' => ?_⟩
    · rw [hlast]
      exact CountedBy.congr hrefs' le_rfl rfl fun _ => rfl
    · have hq' : mid.heap.requests < q := by rwa [hlast] at hq
      have hne : q ≠ child := Nat.ne_of_gt (Nat.lt_of_le_of_lt hold hq')
      rw [hlast]
      simpa [update_of_ne hne] using h.fresh q (Nat.lt_of_le_of_lt hmid.requests hq')
    · rcases hopen q fd g hg with ⟨rfl, hparent⟩ | ⟨hq, hold⟩
      · rw [hinherit q fd hchild]
        exact hheld s.cur fd g hparent
      · rw [horigin q fd hq]
        exact hheld q fd g hold
    · rcases hopen q fd g hg with ⟨rfl, h₁⟩ | ⟨hq, h₁⟩
      · rcases hopen q fd' g hg' with ⟨-, h₂⟩ | ⟨hq', -⟩
        · exact h.distinct _ _ _ _ h₁ h₂
        · exact absurd hchild hq'
      · rcases hopen q fd' g hg' with ⟨rfl, -⟩ | ⟨-, h₂⟩
        · exact absurd hchild hq
        · exact h.distinct _ _ _ _ h₁ h₂

/-- The open descriptors do not depend on the other fields of the control blocks. -/
theorem open_fd_touched (htouched : TasksTouched s last) {fd : Nat} (hopen : OpenFd last q fd g) :
    OpenFd s q fd g := by
  obtain ⟨hnone, hsame, -⟩ := htouched
  obtain ⟨task', htask', hlive, hlo, hhi, hg, hne⟩ := hopen
  cases htask : s.tasks q with
  | none => simp [(hnone q).1 htask] at htask'
  | some task =>
    obtain ⟨hfds, hstatus⟩ := hsame q task task' htask htask'
    have hg' : task.fd fd = g := by rw [← hg, Task.fd, Task.fd, hfds]
    exact ⟨task, htask, fun h => hlive (hstatus.2 h), hlo, hhi, hg', hne⟩

theorem touched (h : FdsOk s origin) (htouched : TasksTouched s last) : FdsOk last origin := by
  obtain ⟨ext, hrefs⟩ := h.refs
  have hrest := htouched.2.2
  have hreq : last.heap.requests = s.heap.requests := by rw [hrest]
  have hfiles : last.fileTable = s.fileTable := by rw [hrest]
  refine h.of_open_fd ⟨ext, hrest ▸ hrefs.with_tasks _⟩ (fun q hq => ?_)
    (fun q fd g hg => open_fd_touched htouched hg) fun q fd idx _ p hp => by rwa [hfiles]
  exact (htouched.1 q).1 (h.fresh q (hreq ▸ hq))

/-- The exit of a process whose slots no other live process holds. -/
theorem exited (h : FdsOk s origin) (hcond : ∀ fd, NotShared s s.cur fd) (hlive : Live s s.cur) :
    wp any sysExit s fun _ last => FdsOk last origin := by
  let I : Nat → Kernel → Prop := fun _ s =>
    FdsOk s origin ∧ (∀ fd, NotShared s s.cur fd) ∧ Live s s.cur
  have hclose : ∀ s fd, 3 ≤ fd → fd < 8 → I fd s →
      (∀ task, s.tasks s.cur = some task → task.fd fd ≠ -1) →
      wp any (sysClose fd) s fun _ last => I (fd + 1) last := by
    intro s fd hlo hhi ⟨hs, hcond, hlive⟩ _
    refine wp_mono sys_close_spec fun r last hclosed => ?_
    have hfd : (2 : Int) < fd := by omega
    obtain ⟨hcur, hlive'⟩ := hclosed.cur_live hlive
    refine ⟨hs.closed (by simpa using hcond fd) hlive hclosed, fun fd' g hg p fd'' hp hp' => ?_,
      hlive'⟩
    rw [hcur] at hg hp
    exact hcond fd' g (hclosed.open_fd hfd hg).1 p fd'' hp (hclosed.open_fd hfd hp').1
  have htouch : ∀ fd s last, TasksTouched s last → I fd s → I fd last := by
    intro _ s last htouched ⟨hs, hcond, task, htask, hlive⟩
    have hcur : last.cur = s.cur := by rw [htouched.2.2]
    refine ⟨hs.touched htouched, fun fd g hg p fd' hp hp' => ?_, ?_⟩
    · rw [hcur] at hg hp
      exact hcond fd g (open_fd_touched htouched hg) p fd' hp (open_fd_touched htouched hp')
    · rw [hcur]
      cases htask' : last.tasks s.cur with
      | none => simp [(htouched.1 _).2 htask'] at htask
      | some task' =>
        exact ⟨task', htask', fun h => hlive ((htouched.2.1 _ _ _ htask htask').2.1 h)⟩
  refine wp_mono (sys_exit_rule hclose (fun _ _ _ h _ _ => h) htouch ⟨h, hcond, hlive⟩) ?_
  intro _ last ⟨mid, task, ⟨hmid, _, _⟩, htask, hlast⟩
  obtain ⟨ext, hrefs⟩ := hmid.refs
  have hopen : ∀ q fd g, OpenFd last q fd g → OpenFd mid q fd g := by
    intro q fd g ⟨task', htask', hlive', hrest⟩
    rw [hlast] at htask'
    dsimp only at htask'
    by_cases hq : q = mid.cur
    · subst hq
      rw [update_self] at htask'
      obtain rfl := Option.some.inj htask'
      exact absurd rfl hlive'
    · rw [update_of_ne hq] at htask'
      exact ⟨task', htask', hlive', hrest⟩
  refine hmid.of_open_fd ⟨ext, hlast ▸ hrefs.with_tasks _⟩ (fun q hq => ?_) hopen
    fun _ _ _ _ _ hq => by rwa [hlast]
  have hq' := hmid.fresh q (by rwa [hlast] at hq)
  have hne : q ≠ mid.cur := by
    rintro rfl
    simp [htask] at hq'
  rw [hlast]
  simpa [update_of_ne hne] using hq'

/-- A call keeps the invariant. -/
theorem step {request : Request} {answer : Answer} (h : FdsOk s origin) (hcall : FdCall request)
    (hcond : ClosesOwn s p request) (hperforms : Performs s p request answer last) :
    FdsOk last (originAfter s last p request answer origin) := by
  have hlive : Live { s with cur := p } p := hperforms.1
  have h' : FdsOk { s with cur := p } origin := by
    obtain ⟨ext, hrefs⟩ := h.refs
    exact ⟨⟨ext, CountedBy.congr hrefs le_rfl rfl fun _ => rfl⟩, h.fresh, h.held,
      h.distinct⟩
  obtain ⟨ext, hrefs⟩ := h'.refs
  suffices hwp : wp any (dispatch request) { s with cur := p } fun answer last =>
      FdsOk last (originAfter s last p request answer origin) from hperforms.of_wp hwp
  cases request with
  | openFile path flags =>
    exact wp_seq (sys_open_spec hrefs.cache_ok) fun r last hopen => h'.opened hopen
  | closeFile fd =>
    exact wp_seq sys_close_spec fun r last hclose => h'.closed hcond hlive hclose
  | fork =>
    exact wp_seq sys_fork_spec fun r last hfork => h'.forked (.int r) hlive hfork
  | exit =>
    exact wp_seq (h'.exited hcond hlive) fun _ last hlast => hlast
  | read | write | unlink | lseek | getcwd | chdir | mkdir | rmdir | opendir | closedir | stat =>
    exact hcall.elim

end FdsOk

end LosKernel
