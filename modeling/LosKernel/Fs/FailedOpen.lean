import LosKernel.Fs.Opening

/-!
# Opens that fail

`file_open` takes a slot of `file_table` and a handle on the inode before it knows whether the
file may be written and whether there is a free descriptor. When one of these is missing it
returns -1 and keeps both. `file_open_rolls_back_iff` says when a failed open leaves the tables as
they were.
-/

namespace LosKernel

open Prog

variable {s : Kernel} {idx : Nat} {n flag : UInt32}

/-! ## Free slots and free descriptors -/

/-- Every slot of `file_table` that a file may take is in use. -/
def TableFull (s : Kernel) : Prop :=
  ∀ idx, 3 ≤ idx → idx < maxFileOpen → (s.fileTable idx).fdInode ≠ none

/-- The running task has a free descriptor. -/
def FdFree (s : Kernel) : Prop :=
  ∀ task, s.tasks s.cur = some task → ∃ fd, 3 ≤ fd ∧ fd < maxFilesOpenPerProc ∧ task.fd fd = -1

theorem table_full_iff :
    TableFull s ↔ findSlot s.fileTable (maxFileOpen - 3) 3 = none :=
  ((find_slot_is_search s.fileTable).eq_none_iff (maxFileOpen - 3) 3).symm

theorem not_fd_free_iff : ¬FdFree s ↔
      ∃ task, s.tasks s.cur = some task ∧ findFd task (maxFilesOpenPerProc - 3) 3 = none := by
  have hnone : ∀ task : Task, findFd task (maxFilesOpenPerProc - 3) 3 = none ↔
      ¬∃ fd, 3 ≤ fd ∧ fd < maxFilesOpenPerProc ∧ task.fd fd = -1 := by
    intro task
    rw [(find_fd_is_search task).eq_none_iff]
    exact ⟨fun h ⟨fd, hle, hlt, hfree⟩ => h fd hle hlt hfree,
      fun h fd hle hlt hfree => h ⟨fd, hle, hlt, hfree⟩⟩
  simp only [FdFree, hnone, not_forall, exists_prop]

/-- With a free descriptor, the result of `pcb_fd_install` is not -1. -/
theorem FdInstalled.ne_of_fd_free {r : Int} {tasks : Ptr → Option Task}
    (h : FdInstalled s idx r tasks) (hfree : FdFree s) : r ≠ -1 := by
  obtain ⟨task, htask, ⟨hnone, -⟩ | ⟨fd, -, rfl, -⟩⟩ := h
  · exact absurd hfree (not_fd_free_iff.2 ⟨task, htask, hnone⟩)
  · omega

/-! ## The open -/

/-- A write to inode `n` is not excluded by another open of the same file for writing. -/
def MayWrite (s : Kernel) (n flag : UInt32) : Prop :=
  writeFlag flag = true → (inodeVersion s n).writeDeny = false

/-- `inode_open` finds inode `n` among the open ones, or it can load it: the number is one of the
table, both requests for memory are served, and the disk has the sectors of the record. -/
def CanOpen (s : Kernel) (n : UInt32) : Prop :=
  findOpenInode s n = none →
    n.toNat < 4096 ∧ s.grant s.heap.requests inodeSize = true ∧
    s.grant (s.heap.requests + 1) (512 * (inodePosition s.part.sb n).secCnt) = true ∧
    sectorsInRange (inodePosition s.part.sb n).secLba (inodePosition s.part.sb n).secCnt = true

/-- `inode_open` returns exactly if the inode can be opened. -/
theorem inode_open_returns_iff :
    wp never (inodeOpen n) s (fun _ _ => True) ↔ CanOpen s n := by
  cases hfind : findOpenInode s n with
  | none =>
    have hlt : n < 4096 ↔ n.toNat < 4096 := by simp [UInt32.lt_iff_toNat_lt]
    simp only [inodeOpen, inodeLocate, mallocKernalInode, wp_bind, wp_state, hfind, wp_assert,
      wp_sys_malloc, wp_non_null, wp_ide_read, wp_pure, decide_eq_true_eq, decide_eq_false_iff_not,
      hlt]
    -- `inode_open` notices a refused request for the inode only after it has read the sectors
    by_cases hn : n.toNat < 4096
    · cases hinode : s.grant s.heap.requests inodeSize <;>
        cases hrange : sectorsInRange (inodePosition s.part.sb n).secLba
          (inodePosition s.part.sb n).secCnt <;>
        simp [CanOpen, never, hfind, hn, hinode, hrange]
    · simp [CanOpen, never, hfind, hn]
  | some p =>
    obtain ⟨-, inode, hinode, -⟩ := find_open_inode_eq_some hfind
    refine iff_of_true ?_ fun hnone => absurd (hfind.symm.trans hnone) (by simp)
    simp only [inodeOpen, wp_bind, wp_state, hfind, wp_deref_inode, hinode, of_some]
    trivial

/-- An open that fails after a slot was found returns -1 and keeps the slot. -/
theorem file_open_keeps_slot {mid : Kernel} {p : Ptr}
    (hslot : findSlot s.fileTable (maxFileOpen - 3) 3 = some idx)
    (hopen : inodeOpen n s = .done p mid) (hfail : ¬(MayWrite s n flag ∧ FdFree s)) :
    wp never (fileOpen n flag) s fun r last =>
      r = -1 ∧ last.fileTable idx = ⟨0, flag, some p⟩ := by
  have hopened : InodeOpened s n p mid :=
    wp_any_iff.1 (inode_open_spec (.inl fun _ => trivial)) p mid hopen
  obtain ⟨cnt, hinode⟩ := hopened.version
  have hcur : mid.tasks = s.tasks ∧ mid.cur = s.cur := by
    rw [hopened.frame]
    exact ⟨rfl, rfl⟩
  -- without a free descriptor the last step fails in any state with the tasks of `mid`
  have hinstall : MayWrite s n flag → ∀ cur : Kernel, cur.tasks = mid.tasks → cur.cur = mid.cur →
      cur.fileTable idx = ⟨0, flag, some p⟩ →
      wp never (pcbFdInstall idx) cur fun r last =>
        r = -1 ∧ last.fileTable idx = ⟨0, flag, some p⟩ := by
    intro hmay cur htasks hcur' hfile
    obtain ⟨task, htask, hnone⟩ := not_fd_free_iff.1 fun hfree => hfail ⟨hmay, hfree⟩
    have htask' : cur.tasks cur.cur = some task := by rw [htasks, hcur', hcur.1, hcur.2, htask]
    simp only [pcbFdInstall, wp_bind, wp_running_thread, htask', of_some, hnone]
    exact ⟨rfl, hfile⟩
  simp only [fileOpen, getFreeSlotInGlobal, wp_bind, wp_state, wp_pure, hslot]
  rw [wp_of_done hopen]
  simp only [wp_bind, wp_store_file, wp_ite, wp_deref_inode, hinode, of_some, wp_pure]
  refine ⟨fun hwrite => ⟨fun _ => ⟨trivial, Function.update_self ..⟩, fun hdeny => ?_⟩,
    fun hread => ?_⟩
  · exact hinstall (fun _ => by simpa using hdeny) _ rfl rfl (Function.update_self ..)
  · exact hinstall (fun hwrite => absurd hwrite hread) _ rfl rfl (Function.update_self ..)

/-- A failed `file_open` leaves `file_table`, the open inodes and the descriptors as they were. -/
def OpenRollsBack (s : Kernel) (n flag : UInt32) : Prop :=
  ∀ last, fileOpen n flag s = .done (-1) last →
    last.fileTable = s.fileTable ∧ last.openInodes = s.openInodes ∧ last.inodes = s.inodes ∧
      last.tasks = s.tasks

/-- A failed `file_open` leaves the tables as they were exactly when the open can only fail for
want of a slot in `file_table`: the table is full, or the inode cannot be opened (the kernel stops),
or the file may be opened as asked for and the process has a free descriptor. -/
theorem file_open_rolls_back_iff (s : Kernel) (n flag : UInt32) : OpenRollsBack s n flag ↔
      TableFull s ∨ ¬CanOpen s n ∨ (MayWrite s n flag ∧ FdFree s) := by
  constructor
  · intro h
    by_contra hcond
    obtain ⟨hfull, hopens, hfail⟩ : ¬TableFull s ∧ CanOpen s n ∧
        ¬(MayWrite s n flag ∧ FdFree s) := by
      simpa only [not_or, not_not] using hcond
    obtain ⟨idx, hslot⟩ := Option.ne_none_iff_exists'.1 (mt table_full_iff.2 hfull)
    obtain ⟨p, mid, hopen, -⟩ := wp_never_iff.1 (inode_open_returns_iff.2 hopens)
    obtain ⟨r, last, hrun, rfl, hkept⟩ :=
      wp_never_iff.1 (file_open_keeps_slot hslot hopen hfail)
    have hsame := congrFun (h last hrun).1 idx
    have hnone := ((find_slot_is_search _).eq_some _ _ hslot).2.2
    rw [← hsame, hkept] at hnone
    exact absurd hnone (by simp)
  · intro hcond last hrun
    have hspec := wp_any_iff.1 file_open_spec (-1) last hrun
    rcases hcond with hfull | hcannot | ⟨hmay, hfree⟩
    · have hnone := table_full_iff.1 hfull
      cases hspec with
      | full hr hlast => exact hlast ▸ ⟨rfl, rfl, rfl, rfl⟩
      | denied idx p mid inode hslot => exact absurd hslot (by simp [hnone])
      | opened idx p mid inode tasks hslot => exact absurd hslot (by simp [hnone])
    · -- when the inode cannot be opened, `file_open` returns only for want of a slot
      obtain ⟨why, hstop⟩ : ∃ why, inodeOpen n s = .stop why := by
        cases hopen : inodeOpen n s with
        | stop why => exact ⟨why, rfl⟩
        | done p mid =>
          exact absurd (inode_open_returns_iff.1 (wp_never_iff.2 ⟨p, mid, hopen, trivial⟩)) hcannot
      cases hspec with
      | full hr hlast => exact hlast ▸ ⟨rfl, rfl, rfl, rfl⟩
      | denied idx p mid inode hslot =>
        simp [fileOpen, getFreeSlotInGlobal, bind_run, hslot, hstop] at hrun
      | opened idx p mid inode tasks hslot =>
        simp [fileOpen, getFreeSlotInGlobal, bind_run, hslot, hstop] at hrun
    · cases hspec with
      | full hr hlast => exact hlast ▸ ⟨rfl, rfl, rfl, rfl⟩
      | denied idx p mid inode hslot hopen hinode hwrite hdeny =>
        obtain ⟨cnt, hversion⟩ := hopen.version
        obtain rfl := Option.some.inj (hinode.symm.trans hversion)
        exact absurd hdeny (by simp [hmay hwrite])
      | opened idx p mid inode tasks hslot hopen hinode hdeny hinstall =>
        exact absurd rfl (hinstall.ne_of_fd_free hfree)

/-- A file that is being written: inode 5 has one handle, in slot 3. -/
def writtenFile : Kernel :=
  { Kernel.start with
    openInodes := [1]
    inodes := fun p => if p = 1 then some ⟨5, 0, 1, true, fun _ => 0⟩ else none
    fileTable := fun idx => if idx = 3 then ⟨0, oWronly, some 1⟩ else ⟨0, 0, none⟩ }

/-- A second open of the file for writing returns -1; it has taken slot 4 and a second handle on the
inode. -/
theorem denied_open_keeps_slot_and_handle :
    ∃ last, fileOpen 5 oWronly writtenFile = .done (-1) last ∧
      (writtenFile.fileTable 4).fdInode = none ∧ (last.fileTable 4).fdInode = some 1 ∧
      (writtenFile.inodes 1).map INode.iOpenCnts = some 1 ∧
      (last.inodes 1).map INode.iOpenCnts = some 2 :=
  ⟨_, rfl, rfl, rfl, rfl, rfl⟩

end LosKernel
