import LosKernel.Fs.RefCounts
import LosKernel.Userprog.Process

/-!
# What fork and exit do to open files

A fork shares the slots of `file_table` between parent and child and raises the counts of their
inodes. An exit closes the files of the process one after the other.
-/

namespace LosKernel

open Prog hiding update

variable {s : Kernel} {I : Nat → Kernel → Prop}
open Function (update update_of_ne update_self)

/-! ## Fork -/

/-- Only the counts of inodes, the heap and the next pid differ. -/
structure CountsRaised (s last : Kernel) : Prop where
  rest : last = { s with heap := last.heap, inodes := last.inodes, nextPid := last.nextPid }
  requests : s.heap.requests ≤ last.heap.requests
  same : ∀ p, (last.inodes p).map (fun inode => { inode with iOpenCnts := 0 }) =
    (s.inodes p).map fun inode => { inode with iOpenCnts := 0 }
  refs : ∀ ext, RefsOk ext s → ∃ ext', RefsOk ext' last

theorem CountsRaised.refl (s : Kernel) : CountsRaised s s :=
  ⟨rfl, Nat.le_refl _, fun _ => rfl, fun ext h => ⟨ext, h⟩⟩

theorem CountsRaised.trans {mid last : Kernel} (h : CountsRaised s mid)
    (h' : CountsRaised mid last) : CountsRaised s last where
  rest := by
    rw [h'.rest]
    conv_lhs => rw [h.rest]
  requests := h.requests.trans h'.requests
  same := fun p => (h'.same p).trans (h.same p)
  refs := by
    intro ext hs
    obtain ⟨ext', hmid⟩ := h.refs ext hs
    exact h'.refs ext' hmid

theorem counts_raised_heap (s : Kernel) {heap : Heap} (hheap : s.heap.requests ≤ heap.requests)
    (nextPid : Int) : CountsRaised s { s with heap := heap, nextPid := nextPid } :=
  ⟨rfl, hheap, fun _ => rfl, fun ext hs =>
    ⟨ext, CountedBy.congr hs hheap rfl fun _ => rfl⟩⟩

theorem counts_raised_once {idx : Nat} {p : Ptr} {inode : INode} (hidx : idx < maxFileOpen)
    (hslot : (s.fileTable idx).fdInode = some p) (hinode : s.inodes p = some inode) :
    CountsRaised s { s with
      inodes := update s.inodes p
        (some { inode with iOpenCnts := inode.iOpenCnts + 1 }) } where
  rest := rfl
  requests := Nat.le_refl _
  same := by
    intro q
    by_cases hq : q = p
    · subst hq
      simp [hinode]
    · simp [update_of_ne hq]
  refs := by
    intro ext hs
    have hpos : 0 < handleRefs s p + ext p := by
      have : 0 < slotCount maxFileOpen (fun i => (s.fileTable i).fdInode) p :=
        slot_count_pos hidx hslot
      unfold handleRefs
      omega
    refine ⟨bump ext p, ?_⟩
    have hcounted := CountedBy.incremented hs ((hs.listed p).1 hpos) hinode le_rfl
    have hbump : (fun q => handleRefs s q + bump ext p q) =
        bump (fun q => handleRefs s q + ext q) p := by
      funext q
      simp only [bump]
      omega
    unfold RefsOk
    exact hbump ▸ hcounted

/-- A fork raises counts only. -/
theorem update_inode_open_cnts_spec (task : Task) (count : Nat) : ∀ {s : Kernel} {fd : Nat},
    wp any (updateInodeOpenCnts task count fd) s fun _ last => CountsRaised s last := by
  induction count with
  | zero => exact fun {s _} => CountsRaised.refl s
  | succ count ih =>
    intro s fd
    simp only [updateInodeOpenCnts, wp_bind, wp_assert, and_any, wp_when, wp_access, fileInode,
      wp_non_null, wp_deref_inode, wp_store_inode, wp_pure, decide_eq_true_eq]
    refine fun hlt => ⟨fun hne hpos p hslot inode hinode => ?_, fun _ => ih⟩
    have hidx : (task.fd fd).toNat < maxFileOpen := by
      have : maxFileOpen = 32 := rfl
      omega
    exact wp_mono ih fun _ last hlast => (counts_raised_once hidx hslot hinode).trans hlast

/-- The child is a copy with a pid of its own. -/
theorem copy_process_spec {parent : Task} :
    wp any (copyProcess parent) s fun r last => CountsRaised s last ∧
      ∀ child, r = some child → ∃ pid, child =
        { parent with pid := pid, status := .ready, parentPid := parent.pid } := by
  have hheap : ∀ {heap : Heap} {nextPid : Int} {r : Option Task}, r = none →
      s.heap.requests ≤ heap.requests →
      CountsRaised s { s with heap := heap, nextPid := nextPid } ∧ ∀ child, r = some child →
        ∃ pid, child = { parent with pid := pid, status := .ready, parentPid := parent.pid } := by
    rintro heap nextPid _ rfl h
    exact ⟨counts_raised_heap s h nextPid, by simp⟩
  unfold copyProcess
  rw [wp_bind, wp_sys_malloc]
  refine ⟨fun _ => ?_, fun _ => hheap rfl (Nat.le_succ _)⟩
  simp only [copyPcb, wp_bind, wp_pure, wp_sys_malloc]
  refine ⟨fun _ => ⟨fun _ => ?_, fun _ => hheap rfl (by simp; omega)⟩,
    fun _ => hheap rfl (by simp; omega)⟩
  refine wp_mono (update_inode_open_cnts_spec _ _) fun _ last hlast => ⟨?_, ?_⟩
  · have hserved : CountsRaised s
        { s with heap := s.heap.served.served.served, nextPid := incPid s.nextPid } :=
      counts_raised_heap s (by simp; omega) _
    have hfree : CountsRaised last
        { last with heap := ⟨last.heap.requests, last.heap.live.erase (s.heap.requests + 1)⟩ } := by
      refine counts_raised_heap last ?_ last.nextPid
      exact Nat.le_refl _
    exact (hserved.trans hlast).trans hfree
  · rintro child ⟨⟩
    exact ⟨_, rfl⟩

/-- `sys_fork` returned `r` and left the state `last`. -/
inductive Forked (s : Kernel) (r : Int) (last : Kernel) : Prop where
  | failed (hlast : CountsRaised s last) (hr : r = -1)
  | forked (mid : Kernel) (child : Ptr) (parent : Task) (pid : Int)
      (hmid : CountsRaised s mid) (hparent : s.tasks s.cur = some parent)
      (hnew : s.heap.requests < child) (hold : child ≤ mid.heap.requests) (hr : r = pid)
      (hlast : last = { mid with
        tasks := update s.tasks child (some { parent with
          pid := pid, status := .ready, parentPid := parent.pid })
        threadAllList := s.threadAllList ++ [child] })

/-- What a fork that returns does. -/
theorem sys_fork_spec : wp any sysFork s fun r last => Forked s r last := by
  simp only [sysFork, wp_bind, wp_running_thread, and_any, wp_sys_malloc]
  refine fun parent hparent => ⟨fun _ => ?_, fun _ => ?_⟩
  · have hserved : CountsRaised s { s with heap := s.heap.served } :=
      counts_raised_heap s (Nat.le_succ _) s.nextPid
    refine wp_mono copy_process_spec ?_
    rintro r last ⟨hlast, hchild⟩
    have hmid := hserved.trans hlast
    cases r with
    | none => exact .failed hmid rfl
    | some child =>
      obtain ⟨pid, rfl⟩ := hchild child rfl
      refine .forked last (s.heap.requests + 1) parent pid hmid hparent (Nat.lt_succ_self _)
        hlast.requests rfl ?_
      have htasks : last.tasks = s.tasks := by rw [hmid.rest]
      have hlist : last.threadAllList = s.threadAllList := by rw [hmid.rest]
      rw [← htasks, ← hlist]
  · exact .failed (counts_raised_heap s (Nat.le_succ _) s.nextPid) rfl

/-! ## Exit -/

/-- The rule for `closeFiles`: the invariant may depend on the next descriptor to close. -/
theorem close_files_rule (hclose : ∀ s fd, 3 ≤ fd → fd < 8 → I fd s →
      (∀ task, s.tasks s.cur = some task → task.fd fd ≠ -1) →
      wp any (sysClose fd) s fun _ last => I (fd + 1) last)
    (hskip : ∀ s fd task, I fd s → s.tasks s.cur = some task → task.fd fd = -1 → I (fd + 1) s)
    (count : Nat) : ∀ {s : Kernel} {fd : Nat}, 3 ≤ fd → fd + count ≤ 8 → I fd s →
    wp any (closeFiles count fd) s fun _ last => I (fd + count) last := by
  induction count with
  | zero => exact fun _ _ h => h
  | succ count ih =>
    intro s fd hlo hhi h
    have hnext : ∀ next, I (fd + 1) next → wp any (closeFiles count (fd + 1)) next
        fun _ last => I (fd + (count + 1)) last := by
      intro next hnext
      have := ih (by omega) (by omega) hnext
      rwa [Nat.add_right_comm] at this
    simp only [closeFiles, wp_bind, wp_running_thread, and_any, wp_when]
    refine fun task htask => ⟨fun hopen => ?_, fun hclosed =>
      hnext s (hskip s fd task h htask (not_not.1 hclosed))⟩
    have hfd : ∀ task', s.tasks s.cur = some task' → task'.fd fd ≠ -1 := by
      intro task' htask'
      obtain rfl : task = task' := Option.some.inj (htask.symm.trans htask')
      exact hopen
    exact wp_mono (hclose s fd hlo (by omega) h hfd) fun _ => hnext

/-- Two control blocks agree on the open files. -/
def SameFiles (task task' : Task) : Prop :=
  task'.fdTable = task.fdTable ∧ (task'.status = .hanging ↔ task.status = .hanging)

/-- Only fields of control blocks that have nothing to do with files differ. -/
def TasksTouched (s last : Kernel) : Prop :=
  (∀ p, s.tasks p = none ↔ last.tasks p = none) ∧
    (∀ p task task', s.tasks p = some task → last.tasks p = some task' → SameFiles task task') ∧
    last = { s with tasks := last.tasks }

theorem tasks_touched_refl (s : Kernel) : TasksTouched s s := by
  refine ⟨fun _ => Iff.rfl, fun p task task' h h' => ?_, rfl⟩
  obtain rfl : task = task' := Option.some.inj (h.symm.trans h')
  exact ⟨rfl, Iff.rfl⟩

theorem adopt_children_touched (pid : Int) (s : Kernel) :
    wp any (adoptChildren pid) s fun _ last => TasksTouched s last := by
  refine ⟨fun p => ?_, fun p task task' h h' => ?_, rfl⟩
  · dsimp only
    split <;> simp
  · dsimp only at h'
    split at h'
    · simp only [h, Option.map_some, Option.some.injEq] at h'
      subst h'
      split <;> exact ⟨rfl, Iff.rfl⟩
    · obtain rfl : task = task' := Option.some.inj (h.symm.trans h')
      exact ⟨rfl, Iff.rfl⟩

theorem wake_parent_touched (pid : Int) (s : Kernel) :
    wp any (wakeParent pid) s fun _ last => TasksTouched s last := by
  simp only [wakeParent, wp_bind, wp_non_null, wp_when, and_any]
  refine fun parent _ parentTask hparent => ⟨fun hwaiting => ?_, fun _ => tasks_touched_refl s⟩
  refine ⟨fun p => ?_, fun p task task' h h' => ?_, rfl⟩
  · by_cases hp : p = parent
    · subst hp
      simp [hparent]
    · simp [update_of_ne hp]
  · dsimp only at h'
    by_cases hp : p = parent
    · subst hp
      obtain rfl : task = parentTask := Option.some.inj (h.symm.trans hparent)
      rw [update_self] at h'
      obtain rfl := Option.some.inj h'
      exact ⟨rfl, by simp [hwaiting]⟩
    · rw [update_of_ne hp] at h'
      obtain rfl : task = task' := Option.some.inj (h.symm.trans h')
      exact ⟨rfl, Iff.rfl⟩

/-- The rule for `sys_exit`: it closes the files of the process and marks it as hanging. -/
theorem sys_exit_rule (hclose : ∀ s fd, 3 ≤ fd → fd < 8 → I fd s →
      (∀ task, s.tasks s.cur = some task → task.fd fd ≠ -1) →
      wp any (sysClose fd) s fun _ last => I (fd + 1) last)
    (hskip : ∀ s fd task, I fd s → s.tasks s.cur = some task → task.fd fd = -1 → I (fd + 1) s)
    (htasks : ∀ fd s last, TasksTouched s last → I fd s → I fd last) (h : I 3 s) :
    wp any sysExit s fun _ last => ∃ mid task, I 8 mid ∧ mid.tasks mid.cur = some task ∧
      last = { mid with
        tasks := update mid.tasks mid.cur (some { task with status := .hanging }) } := by
  simp only [sysExit, wp_bind, wp_running_thread, wp_assert, and_any]
  intro task htask _
  refine wp_mono (adopt_children_touched _ s) fun _ s1 h1 => ?_
  refine wp_mono (close_files_rule hclose hskip _ le_rfl (by decide)
    (htasks _ _ _ h1 h)) fun _ s2 h2 => ?_
  intro task2 _
  refine wp_mono (wake_parent_touched _ s2) fun _ s3 h3 => ?_
  exact fun task3 htask3 => ⟨s3, task3, htasks _ _ _ h3 h2, htask3, rfl⟩

end LosKernel
