import Mathlib.Data.List.Find
import LosKernel.Fs.Mounted
import LosKernel.Userprog.SharedFds

/-!
# A single writer

`write_deny` of an inode is to be set while a slot of `file_table` holds the inode for writing.
`file_open` sets the flag, but `file_create` does not, a refused `file_open` leaves its slot
filled, and every `file_close` clears the flag. `single_writer_of_run` says that the flag is exact
in every run without these three kinds of calls.
-/

namespace LosKernel

open Prog hiding update
open Function (update update_of_ne update_self)
open Kernel (booted)

variable {s last cur : Kernel} {p q d : Ptr} {r fd : Int} {n m : UInt32} {ext : Ptr → Nat}
  {dir : Option UInt32} {task : Task} {idx i k : Nat} {file : File} {request : Request}
  {answer : Answer}

/-- The inode that slot `idx` holds for writing. -/
def writerSlot (s : Kernel) (idx : Nat) : Option Ptr :=
  if writeFlag (s.fileTable idx).fdFlag then (s.fileTable idx).fdInode else none

/-- The number of slots that hold the inode at `p` for writing. -/
def writers (s : Kernel) (p : Ptr) : Nat := slotCount maxFileOpen (writerSlot s) p

/-- Every open inode has at most one writer, and `write_deny` tells whether it has one. -/
def SingleWriter (s : Kernel) : Prop :=
  ∀ p ∈ s.openInodes, ∀ inode, s.inodes p = some inode →
    writers s p ≤ 1 ∧ (inode.writeDeny = true ↔ writers s p = 1)

/-! ## Slots and writers -/

theorem writers_congr (h : last.fileTable = s.fileTable) : writers last = writers s := by
  funext p
  unfold writers
  congr 1
  funext i
  simp [writerSlot, h]

theorem writer_slot_update (h : last.fileTable = update s.fileTable idx file) :
    writerSlot last = update (writerSlot s) idx
      (if writeFlag file.fdFlag then file.fdInode else none) := by
  funext i
  by_cases hi : i = idx
  · subst hi
    simp [writerSlot, h]
  · simp [writerSlot, h, update_of_ne hi]

/-- Filling or clearing a slot, as a change of the number of writers. -/
theorem writers_update (hidx : idx < maxFileOpen)
    (h : last.fileTable = update s.fileTable idx file) (p : Ptr) :
    writers last p + (if writerSlot s idx = some p then 1 else 0) =
      writers s p + if writeFlag file.fdFlag = true ∧ file.fdInode = some p then 1 else 0 := by
  have := slot_count_update hidx (writerSlot s)
  rw [writers, writer_slot_update h, this, writers]
  by_cases hflag : writeFlag file.fdFlag = true <;> simp [hflag]

theorem writer_slot_free (h : (s.fileTable idx).fdInode = none) : writerSlot s idx = none := by
  simp [writerSlot, h]

/-- Only the inode that a slot holds can have it as a writer. -/
theorem writers_eq_zero (h : ∀ idx < maxFileOpen, (s.fileTable idx).fdInode ≠ some p) :
    writers s p = 0 := by
  refine slot_count_eq_zero fun idx hidx hslot => h idx hidx ?_
  unfold writerSlot at hslot
  split at hslot
  · exact hslot
  · simp at hslot

theorem RefsOk.slot_open (h : RefsOk ext s) (hidx : idx < maxFileOpen)
    (hslot : (s.fileTable idx).fdInode = some p) : p ∈ s.openInodes := by
  refine (h.listed p).1 ?_
  have : 0 < slotCount maxFileOpen (fun i => (s.fileTable i).fdInode) p := slot_count_pos hidx hslot
  unfold handleRefs
  omega

theorem writers_fresh (h : RefsOk ext s) (hp : s.heap.requests < p) : writers s p = 0 := by
  refine writers_eq_zero fun idx hidx hslot => ?_
  obtain ⟨inode, hinode, -⟩ := h.counted p (h.slot_open hidx hslot)
  simp [h.fresh p hp] at hinode

/-! ## Opening -/

/-- The invariant of the runs. -/
structure WritersOk (s : Kernel) : Prop where
  refs : ∃ ext, RefsOk ext s
  clean : TableClean s
  single : SingleWriter s

namespace SingleWriter

/-- Only the open inodes, their flags and the writers matter. -/
theorem congr (h : SingleWriter s) (hopen : last.openInodes = s.openInodes)
    (hwriters : writers last = writers s)
    (hdeny : ∀ p, (last.inodes p).map INode.writeDeny = (s.inodes p).map INode.writeDeny) :
    SingleWriter last := by
  intro p hp inode hinode
  rw [hopen] at hp
  have hp' := hdeny p
  rw [hinode] at hp'
  cases hold : s.inodes p with
  | none => simp [hold] at hp'
  | some old =>
    have hsame : inode.writeDeny = old.writeDeny := by simpa [hold] using hp'
    rw [hwriters, hsame]
    exact h p hp old hold

theorem of_handle_frame (h : SingleWriter s) (hframe : HandleFrame s last) : SingleWriter last := by
  refine h.congr hframe.open_inodes_eq (writers_congr hframe.file_table_eq) fun p => ?_
  have := congrArg (Option.map fun tag => tag.2.2) (hframe.tags p)
  simpa [Function.comp_def, INode.tag] using this

theorem slots_cleared {fileTable : Nat → File} (h : SingleWriter s)
    (hslots : SlotsCleared s.fileTable fileTable) :
    SingleWriter { s with fileTable := fileTable } := by
  rcases hslots with rfl | ⟨idx, hslot, rfl⟩
  · exact h
  · obtain ⟨-, hidx, hfree⟩ := (find_slot_is_search _).eq_some _ _ hslot
    refine h.congr rfl (funext fun p => ?_) fun _ => rfl
    have hupdate : writers { s with
        fileTable := update s.fileTable idx ⟨0, 0, none⟩ } p + _ = _ :=
      writers_update hidx rfl p
    simpa [writer_slot_free hfree] using hupdate

/-- An inode that is loaded has no writer, and its record does not deny writing. -/
theorem inode_opened (h : SingleWriter s) (hrefs : RefsOk ext s) (hclean : TableClean s)
    (hopen : InodeOpened s n p last) : SingleWriter last := by
  cases hopen with
  | hit inode heap hfind hinode hheap hlast =>
    subst hlast
    refine h.congr rfl rfl fun q => ?_
    by_cases hq : q = p
    · subst hq
      simp [hinode]
    · simp [update_of_ne hq]
  | miss heap hfind hn hnew hheap hlast =>
    subst hlast
    have hwriters : writers (pushInode s heap p { inodeLoaded s n with iOpenCnts := 1 }) =
        writers s := writers_congr rfl
    intro q hq inode hinode
    rw [hwriters]
    by_cases hqp : q = p
    · subst hqp
      obtain rfl : { inodeLoaded s n with iOpenCnts := 1 } = inode := by
        simpa [pushInode] using hinode
      simp [writers_fresh hrefs hnew, (hclean.loaded hn).1]
    · exact h q (by simpa [pushInode, hqp] using hq) inode
        (by simpa [pushInode, update_of_ne hqp] using hinode)

end SingleWriter

/-- An inode that is open for writing was so before another inode was opened. -/
theorem InodeOpened.version_deny (hc : CacheOk s) (hclean : TableClean s)
    (h : InodeOpened s n p cur) (hdeny : (inodeVersion cur m).writeDeny = true) :
    (inodeVersion s m).writeDeny = true := by
  rcases h.version_cases hc m with ⟨cnt, hversion⟩ | ⟨hn, -, -, hversion⟩
  · rwa [hversion] at hdeny
  · rw [hversion] at hdeny
    exact absurd hdeny (by simp [(hclean.loaded hn).1])

theorem DirHeld.version_deny (hc : CacheOk s) (hclean : TableClean s) (h : DirHeld s dir d cur)
    (hdeny : (inodeVersion cur m).writeDeny = true) : (inodeVersion s m).writeDeny = true := by
  cases h with
  | root hsame =>
    obtain ⟨heap, -, rfl⟩ := hsame
    exact hdeny
  | opened hopened =>
    obtain ⟨p, mid, hopen, -, -, rfl⟩ := hopened
    exact hopen.version_deny hc hclean hdeny

/-- The condition on `sys_open`: a call with a write flag creates no file, and it finds no inode
that is open for writing. -/
def OpensSafely (s : Kernel) (path : CStr) (flags : UInt32) : Prop :=
  writeFlag flags = true → findSlot s.fileTable (maxFileOpen - 3) 3 ≠ none →
    (flags &&& oCreat ≠ 0 → HeapOk s ∧
      (CreatesFile s path flags → bitmapScan s.part.inodeBitmap 1 = none)) ∧
    (OpensFile s path flags → (inodeVersion s (lookup s path).inodeNo).writeDeny = false)

namespace WritersOk

theorem inode_opened (h : WritersOk s) (hopen : InodeOpened s n p last) : SingleWriter last := by
  obtain ⟨ext, hrefs⟩ := h.refs
  exact h.single.inode_opened hrefs h.clean hopen

theorem dir_held (h : WritersOk s) (hheld : DirHeld s dir d last) : WritersOk last := by
  obtain ⟨ext, hrefs⟩ := h.refs
  refine ⟨⟨ext, hrefs.held hheld⟩, h.clean.dir_held hheld, ?_⟩
  cases hheld with
  | root hsame => exact h.single.of_handle_frame hsame.handle
  | opened hopened =>
    obtain ⟨p, mid, hopen, -, -, rfl⟩ := hopened
    exact (h.inode_opened hopen).congr rfl rfl fun _ => rfl

/-- A slot is filled with an inode that was just opened. -/
theorem fill_slot {mid : Kernel} {inode : INode} {flag : UInt32} {tasks : Ptr → Option Task}
    (h : WritersOk s) (hopen : InodeOpened s n p mid) (hinode : mid.inodes p = some inode)
    (hidx : idx < maxFileOpen) (hfree : (s.fileTable idx).fdInode = none)
    (hdeny : writeFlag flag = true → inode.writeDeny = false) :
    SingleWriter { mid with
      inodes := update mid.inodes p
        (some { inode with writeDeny := writeFlag flag || inode.writeDeny })
      fileTable := update mid.fileTable idx ⟨0, flag, some p⟩
      tasks := tasks } := by
  have hmid := h.inode_opened hopen
  have htable : mid.fileTable = s.fileTable := by rw [hopen.frame]
  have hslot : writerSlot mid idx = none := writer_slot_free (by rwa [htable])
  intro q hq new hnew
  have hcount : writers { mid with
      inodes := update mid.inodes p
        (some { inode with writeDeny := writeFlag flag || inode.writeDeny })
      fileTable := update mid.fileTable idx ⟨0, flag, some p⟩
      tasks := tasks } q + _ = _ := writers_update hidx rfl q
  simp only [hslot, reduceCtorEq, if_false, Nat.add_zero, Option.some.injEq] at hcount
  rw [hcount]
  by_cases hqp : q = p
  · subst hqp
    obtain rfl : { inode with writeDeny := writeFlag flag || inode.writeDeny } = new := by
      simpa using hnew
    obtain ⟨hle, hiff⟩ := hmid q hq inode hinode
    by_cases hflag : writeFlag flag = true
    · have hzero : writers mid q = 0 := by
        have hne : ¬writers mid q = 1 := fun hone => by simpa [hdeny hflag] using hiff.2 hone
        omega
      simp [hflag, hzero]
    · have hboth := And.intro hle hiff
      simpa [hflag] using hboth
  · rw [if_neg fun hsame => hqp hsame.2.symm, Nat.add_zero]
    exact hmid q hq new (by simpa [update_of_ne hqp] using hnew)

/-- The step of `sys_open`. -/
theorem opened {path : CStr} {flags : UInt32} (h : WritersOk s) (hcond : OpensSafely s path flags)
    (hopen : Opened s path flags r last) : SingleWriter last := by
  obtain ⟨ext, hrefs⟩ := h.refs
  cases hopen with
  | failed fileTable hslots hlast hr => exact (h.single.slots_cleared hslots).of_handle_frame hlast
  | created base p inode idx tasks hflags hbase hnew hp hcnt hdeny hslot hinstall hlast hscan
      hcreates =>
      have hflag : writeFlag flags = false := by
        by_contra hwrite
        obtain ⟨hheap, hfull⟩ := (hcond (by simpa using hwrite) (by simp [hslot])).1 hflags
        exact hscan (hfull (hcreates hheap))
      obtain ⟨-, hidx, hfree⟩ := (find_slot_is_search _).eq_some _ _ hslot
      have htable := hbase.file_table_eq
      have hwriters : ∀ q, writers last q = writers base q := by
        intro q
        have hupdate : last.fileTable =
            update base.fileTable idx ⟨0, flags, some p⟩ := by rw [hlast]; rfl
        have := writers_update hidx hupdate q
        simpa [hflag, writer_slot_free (by rwa [htable] : (base.fileTable idx).fdInode = none)]
      have hbase' := h.single.of_handle_frame hbase
      have hzero : writers base p = 0 := by
        rw [writers_congr htable]
        exact writers_fresh hrefs hnew
      intro q hq new hnew'
      rw [hwriters]
      subst hlast
      by_cases hqp : q = p
      · subst hqp
        obtain rfl : inode = new := by simpa [withFile] using hnew'
        simp [hzero, hdeny]
      · exact hbase' q (by simpa [withFile, hqp] using hq) new
          (by simpa [withFile, update_of_ne hqp] using hnew')
  | reopened d cur hopens hheld hopen =>
    have hcur := h.dir_held hheld
    have htable : cur.fileTable = s.fileTable := by rw [hheld.frame]
    -- the version of the inode in the state before the search
    have hversion : ∀ p mid inode, InodeOpened cur (lookup s path).inodeNo p mid →
        mid.inodes p = some inode → inode.writeDeny = true →
        (inodeVersion s (lookup s path).inodeNo).writeDeny = true := by
      intro p mid inode hopen hinode hdeny
      obtain ⟨cnt, hv⟩ := hopen.version
      obtain rfl := Option.some.inj (hinode.symm.trans hv)
      exact hheld.version_deny hrefs.cache_ok h.clean hdeny
    cases hopen with
    | full hr hlast => exact hlast ▸ hcur.single
    | denied idx p mid inode hslot hopen hinode hwrite hdeny hr hlast =>
      have hfalse := (hcond hwrite (by rw [← htable, hslot]; simp)).2 hopens
      simp [hversion p mid inode hopen hinode hdeny] at hfalse
    | opened idx p mid inode tasks hslot hopen hinode hdeny hinstall hlast =>
      obtain ⟨-, hidx, hfree⟩ := (find_slot_is_search _).eq_some _ _ hslot
      exact hlast ▸ hcur.fill_slot hopen hinode hidx hfree hdeny

end WritersOk

/-! ## Closing -/

/-- What closing slot `idx`, which holds the inode at `p`, does to the writers. -/
structure SlotClosed (s : Kernel) (idx : Nat) (p : Ptr) (last : Kernel) : Prop where
  slot : (s.fileTable idx).fdInode = some p
  bound : idx < maxFileOpen
  files : last.fileTable =
    update s.fileTable idx { s.fileTable idx with fdInode := none }
  others : ∀ q ∈ last.openInodes, q ≠ p → q ∈ s.openInodes ∧ last.inodes q = s.inodes q
  cleared : ∀ inode, last.inodes p = some inode → inode.writeDeny = false

theorem Closed.slot_closed (h : Closed s fd r last) (hfd : 2 < fd) :
    ∃ (task : Task) (idx : Nat) (p : Ptr), s.tasks s.cur = some task ∧ fd < 8 ∧
      task.fd fd.toNat = (idx : Int) ∧ SlotClosed s idx p last ∧ last.cur = s.cur ∧
      last.tasks = update s.tasks s.cur (some (task.setFd fd.toNat (-1))) := by
  cases h with
  | ignored hle hr hlast => omega
  | closed task idx p inode mid htask hfd hslot hidx hfile hinode hclose hr hlast =>
    have hcur : mid.cur = s.cur := by rw [hclose.frame]
    refine ⟨task, idx, p, htask, hfd.2, hslot, ⟨hfile, hidx, by rw [hlast], ?_, ?_⟩,
      by rw [hlast]; exact hcur, by rw [hlast]⟩
    · intro q hq hne
      subst hlast
      cases hclose with
      | dropped _ heap hinode' hcnt hmem hheap hmid =>
        subst hmid
        exact ⟨List.mem_of_mem_erase hq, by simp [dropInode, update_of_ne hne]⟩
      | kept _ hinode' hcnt hmid =>
        subst hmid
        exact ⟨hq, by simp [update_of_ne hne]⟩
    · intro new hnew
      subst hlast
      cases hclose with
      | dropped _ heap hinode' hcnt hmem hheap hmid =>
        subst hmid
        simp [dropInode] at hnew
      | kept _ hinode' hcnt hmid =>
        subst hmid
        simp only [update_self, Option.some.injEq] at hinode' hnew
        rw [← hnew, ← hinode']

namespace SlotClosed

/-- The slots that hold an inode for writing after the close did so before. -/
theorem writer_slot_of (h : SlotClosed s idx p last) (hi : writerSlot last i = some q) :
    i ≠ idx ∧ writerSlot s i = some q := by
  rw [writer_slot_update h.files] at hi
  by_cases hne : i = idx
  · subst hne
    simp at hi
  · exact ⟨hne, by rwa [update_of_ne hne] at hi⟩

theorem writers_le (h : SlotClosed s idx p last) (q : Ptr) : writers last q ≤ writers s q := by
  have := writers_update h.bound h.files q
  simp only [reduceCtorEq, and_false, if_false] at this
  omega

theorem writers_of_ne (h : SlotClosed s idx p last) (hq : q ≠ p) : writers last q =
    writers s q := by
  have hslot : writerSlot s idx ≠ some q := by
    unfold writerSlot
    split
    · rw [h.slot]
      simpa using hq.symm
    · simp
  have := writers_update h.bound h.files q
  simpa [hslot] using this

end SlotClosed

/-- Closing a slot of an inode that no other slot holds for writing. -/
theorem SingleWriter.slot_closed (h : SingleWriter s)
    (hcond : ∀ i < maxFileOpen, i ≠ idx → writerSlot s i ≠ some p)
    (hclose : SlotClosed s idx p last) : SingleWriter last := by
  intro q hq inode hinode
  by_cases hqp : q = p
  · subst hqp
    have hzero : writers last q = 0 := by
      refine slot_count_eq_zero fun i hi hslot => ?_
      obtain ⟨hne, hslot⟩ := hclose.writer_slot_of hslot
      exact hcond i hi hne hslot
    simp [hzero, hclose.cleared inode hinode]
  · obtain ⟨hmem, hsame⟩ := hclose.others q hq hqp
    rw [hclose.writers_of_ne hqp]
    exact h q hmem inode (hsame ▸ hinode)

/-- The condition on `sys_close`: the inode of the descriptor is not open for writing in another
slot. -/
def ClosesSafely (s : Kernel) (fd : Int) : Prop :=
  2 < fd → ∀ task (idx : Nat) p, s.tasks s.cur = some task → task.fd fd.toNat = idx →
    (s.fileTable idx).fdInode = some p →
    ∀ i < maxFileOpen, i ≠ idx → writerSlot s i ≠ some p

/-- The step of `sys_close`. -/
theorem WritersOk.closed (h : WritersOk s) (hcond : ClosesSafely s fd)
    (hclose : Closed s fd r last) : WritersOk last := by
  obtain ⟨ext, hrefs⟩ := h.refs
  refine ⟨⟨ext, hrefs.closed hclose⟩, h.clean.closed hclose, ?_⟩
  by_cases hfd : 2 < fd
  · obtain ⟨task, idx, p, htask, -, hslot, hclosed, -⟩ := hclose.slot_closed hfd
    exact h.single.slot_closed (hcond hfd task idx p htask hslot hclosed.slot) hclosed
  · cases hclose with
    | ignored hle hr hlast => exact hlast ▸ h.single
    | closed task idx p inode mid htask hfd' hslot hidx hfile hinode hclose hr hlast => omega

/-! ## Exit -/

/-- A descriptor of the running process, `k` or a later one, is open on slot `i`. -/
def Owns (s : Kernel) (k i : Nat) : Prop :=
  ∃ task fd, s.tasks s.cur = some task ∧ k ≤ fd ∧ fd < 8 ∧ task.fd fd = (i : Int)

/-- The condition on `sys_exit`: the process holds all slots in which an inode of its own
descriptors is open for writing. -/
def ExitsSafely (s : Kernel) (k : Nat) : Prop :=
  ∀ idx q, Owns s k idx → (s.fileTable idx).fdInode = some q →
    ∀ i < maxFileOpen, writerSlot s i = some q → Owns s k i

/-- The invariant while `sys_exit` closes the descriptors from `k` on: a flag may be clear already
when the slot that holds the inode for writing is still to be closed. -/
structure ExitOk (k : Nat) (s : Kernel) : Prop where
  refs : ∃ ext, RefsOk ext s
  clean : TableClean s
  single : ∀ q ∈ s.openInodes, ∀ inode, s.inodes q = some inode →
    writers s q ≤ 1 ∧ (inode.writeDeny = true → writers s q = 1) ∧
      ∀ i < maxFileOpen, writerSlot s i = some q → inode.writeDeny = true ∨ Owns s k i
  cond : ExitsSafely s k

theorem Owns.le (h : Owns s (k + 1) i) : Owns s k i := by
  obtain ⟨task, fd, htask, hle, hrest⟩ := h
  exact ⟨task, fd, htask, by omega, hrest⟩

/-- A slot other than that of the descriptor `k` belongs to a later one. -/
theorem Owns.succ (h : Owns s k i) (htask : s.tasks s.cur = some task)
    (hne : task.fd k ≠ (i : Int)) : Owns s (k + 1) i := by
  obtain ⟨task', fd, htask', hle, hlt, hfd⟩ := h
  obtain rfl : task = task' := Option.some.inj (htask.symm.trans htask')
  have : fd ≠ k := by
    rintro rfl
    exact hne hfd
  exact ⟨task, fd, htask, by omega, hlt, hfd⟩

namespace ExitOk

theorem of_writers (h : WritersOk s) (hcond : ExitsSafely s k) : ExitOk k s where
  refs := h.refs
  clean := h.clean
  single := by
    intro q hq inode hinode
    obtain ⟨hle, hiff⟩ := h.single q hq inode hinode
    refine ⟨hle, hiff.1, fun i hi hslot => .inl (hiff.2 ?_)⟩
    have : 0 < writers s q := slot_count_pos hi hslot
    omega
  cond := hcond

theorem writers_ok (h : ExitOk 8 s) : WritersOk s where
  refs := h.refs
  clean := h.clean
  single := by
    intro q hq inode hinode
    obtain ⟨hle, hone, hall⟩ := h.single q hq inode hinode
    refine ⟨hle, hone, fun hwriters => ?_⟩
    by_contra hdeny
    have hzero : writers s q = 0 := by
      refine slot_count_eq_zero fun i hi hslot => ?_
      rcases hall i hi hslot with h | ⟨task, fd, -, hle, hlt, -⟩
      · exact hdeny h
      · omega
    omega

theorem skip (h : ExitOk k s) (htask : s.tasks s.cur = some task) (hfd : task.fd k = -1) :
    ExitOk (k + 1) s := by
  have hsucc : ∀ i, Owns s k i → Owns s (k + 1) i := fun i hi => hi.succ htask (by omega)
  refine ⟨h.refs, h.clean, fun q hq inode hinode => ?_, fun idx q hidx hslot i hi hw => ?_⟩
  · obtain ⟨hle, hone, hall⟩ := h.single q hq inode hinode
    exact ⟨hle, hone, fun i hi hslot => (hall i hi hslot).imp_right (hsucc i)⟩
  · exact hsucc i (h.cond idx q hidx.le hslot i hi hw)

theorem closed (h : ExitOk k s) (hk : 2 < k) (hclose : Closed s k r last) :
    ExitOk (k + 1) last := by
  obtain ⟨ext, hrefs⟩ := h.refs
  obtain ⟨task, idx, p, htask, hlt, hfd, hclosed, hcur, htasks⟩ :=
    hclose.slot_closed (by omega)
  rw [Int.toNat_natCast] at hfd htasks
  have hown : Owns s k idx := ⟨task, k, htask, Nat.le_refl _, by omega, hfd⟩
  -- after the close the later descriptors are as before
  have hback : ∀ i, Owns last (k + 1) i → Owns s k i := by
    intro i ⟨task', fd, htask', hle, hlt, hfd⟩
    rw [hcur, htasks, update_self] at htask'
    obtain rfl := Option.some.inj htask'
    rw [fd_set_fd_ne (by omega)] at hfd
    exact ⟨task, fd, htask, by omega, hlt, hfd⟩
  have hkeep : ∀ i, i ≠ idx → Owns s k i → Owns last (k + 1) i := by
    intro i hi hi'
    obtain ⟨task', fd, htask', hle, hlt, hfd'⟩ := hi'.succ htask (by omega)
    obtain rfl : task = task' := Option.some.inj (htask.symm.trans htask')
    refine ⟨task.setFd k (-1), fd, ?_, hle, hlt, ?_⟩
    · rw [hcur, htasks, update_self]
    · rwa [fd_set_fd_ne (by omega)]
  refine ⟨⟨ext, hrefs.closed hclose⟩, h.clean.closed hclose, fun q hq inode hinode => ?_,
    fun idx' q hidx hslot i hi hw => ?_⟩
  · by_cases hqp : q = p
    · subst hqp
      have hdeny := hclosed.cleared inode hinode
      obtain ⟨old, hold, -⟩ := hrefs.counted q (hrefs.slot_open hclosed.bound hclosed.slot)
      obtain ⟨hle, -, -⟩ := h.single q (hrefs.slot_open hclosed.bound hclosed.slot) old hold
      refine ⟨(hclosed.writers_le q).trans hle, fun h => by simp [hdeny] at h,
        fun i hi hw => .inr ?_⟩
      obtain ⟨hne, hw⟩ := hclosed.writer_slot_of hw
      exact hkeep i hne (h.cond idx q hown hclosed.slot i hi hw)
    · obtain ⟨hmem, hsame⟩ := hclosed.others q hq hqp
      obtain ⟨hle, hone, hall⟩ := h.single q hmem inode (hsame ▸ hinode)
      rw [hclosed.writers_of_ne hqp]
      refine ⟨hle, hone, fun i hi hw => ?_⟩
      obtain ⟨hne, hw⟩ := hclosed.writer_slot_of hw
      exact (hall i hi hw).imp_right (hkeep i hne)
  · obtain ⟨hne, hw⟩ := hclosed.writer_slot_of hw
    have hidx' : idx' ≠ idx := by
      rintro rfl
      simp [hclosed.files] at hslot
    rw [hclosed.files, update_of_ne hidx'] at hslot
    exact hkeep i hne (h.cond idx' q (hback idx' hidx) hslot i hi hw)

theorem touched (h : ExitOk k s) (htouched : TasksTouched s last) : ExitOk k last := by
  obtain ⟨ext, hrefs⟩ := h.refs
  obtain ⟨hnone, hsame, hrest⟩ := htouched
  have hcur : last.cur = s.cur := by rw [hrest]
  have hfiles : last.fileTable = s.fileTable := by rw [hrest]
  have hslots : writerSlot last = writerSlot s := by
    funext i
    simp [writerSlot, hfiles]
  have howns : ∀ i, Owns last k i ↔ Owns s k i := by
    intro i
    unfold Owns
    rw [hcur]
    cases htask : s.tasks s.cur with
    | none => simp [(hnone _).1 htask]
    | some task =>
      cases htask' : last.tasks s.cur with
      | none => simp [(hnone _).2 htask'] at htask
      | some task' =>
        have hfds := (hsame _ _ _ htask htask').1
        simp [Task.fd, hfds]
  refine ⟨⟨ext, hrest ▸ hrefs.with_tasks _⟩, ?_, fun q hq inode hinode => ?_, ?_⟩
  · exact h.clean.of_inodes (by rw [hrest]) (by rw [hrest]) (by rw [hrest])
  · rw [hrest] at hq hinode
    rw [writers_congr hfiles, hslots]
    simpa only [howns] using h.single q hq inode hinode
  · simpa only [ExitsSafely, howns, hslots, hfiles] using h.cond

end ExitOk

/-- The exit of a process that holds all slots in which its inodes are open for writing. -/
theorem WritersOk.exited (h : WritersOk s) (hcond : ExitsSafely s 3) :
    wp any sysExit s fun _ last => WritersOk last := by
  have hclose : ∀ s fd, 3 ≤ fd → fd < 8 → ExitOk fd s →
      (∀ task, s.tasks s.cur = some task → task.fd fd ≠ -1) →
      wp any (sysClose fd) s fun _ last => ExitOk (fd + 1) last :=
    fun s fd hlo _ hs _ => wp_mono sys_close_spec fun _ _ hclosed => hs.closed hlo hclosed
  refine wp_mono (sys_exit_rule hclose (fun _ _ _ hs htask hfd => hs.skip htask hfd)
    (fun _ _ _ htouched hs => hs.touched htouched) (ExitOk.of_writers h hcond)) ?_
  rintro _ last ⟨mid, task, hmid, -, rfl⟩
  obtain ⟨⟨ext, hrefs⟩, hclean, hsingle⟩ := hmid.writers_ok
  exact ⟨⟨ext, hrefs.with_tasks _⟩, hclean.of_inodes rfl rfl rfl, hsingle⟩

/-! ## Runs -/

theorem TableClean.counts_raised (h : TableClean s) (hraised : CountsRaised s last) :
    TableClean last := by
  have hrest := hraised.rest
  refine h.of_cache (by rw [hrest]) (by rw [hrest]) fun p inode hinode => ?_
  have hsame := hraised.same p
  rw [hinode] at hsame
  cases hold : s.inodes p with
  | none => simp [hold] at hsame
  | some old =>
    have heq : { inode with iOpenCnts := 0 } = { old with iOpenCnts := 0 } := by
      simpa [hold] using hsame
    have hsectors : inode.iSectors = old.iSectors := by
      simpa using congrArg INode.iSectors heq
    intro k
    have := h.cached p old hold k
    unfold INode.sector at this ⊢
    rwa [hsectors]

namespace WritersOk

/-- A fork leaves the flags and the slots alone. -/
theorem counts_raised (h : WritersOk s) (hraised : CountsRaised s last) : WritersOk last := by
  obtain ⟨ext, hrefs⟩ := h.refs
  have hrest := hraised.rest
  refine ⟨hraised.refs ext hrefs, h.clean.counts_raised hraised, ?_⟩
  refine h.single.congr (by rw [hrest]) (writers_congr (by rw [hrest])) fun p => ?_
  have := congrArg (Option.map INode.writeDeny) (hraised.same p)
  simpa [Function.comp_def] using this

/-- The step of `sys_fork`. -/
theorem forked (h : WritersOk s) (hfork : Forked s r last) : WritersOk last := by
  cases hfork with
  | failed hlast hr => exact h.counts_raised hlast
  | forked mid child parent pid hmid hparent hnew hold hr hlast =>
    obtain ⟨⟨ext, hrefs⟩, hclean, hsingle⟩ := h.counts_raised hmid
    subst hlast
    exact ⟨⟨ext, CountedBy.congr hrefs le_rfl rfl fun _ => rfl⟩,
      hclean.of_inodes rfl rfl rfl, hsingle⟩

end WritersOk

/-- The conditions on the calls of process `p`. -/
def WritesSafely (s : Kernel) (p : Ptr) : Request → Prop
  | .openFile path flags => OpensSafely { s with cur := p } path flags
  | .closeFile fd => ClosesSafely { s with cur := p } fd
  | .exit => ExitsSafely { s with cur := p } 3
  | _ => True

/-- A call keeps the invariant. -/
theorem WritersOk.step (h : WritersOk s) (hcall : FdCall request)
    (hcond : WritesSafely s p request) (hperforms : Performs s p request answer last) :
    WritersOk last := by
  have h' : WritersOk { s with cur := p } := by
    obtain ⟨⟨ext, hrefs⟩, hclean, hsingle⟩ := h
    exact ⟨⟨ext, CountedBy.congr hrefs le_rfl rfl fun _ => rfl⟩,
      hclean.of_inodes rfl rfl rfl, hsingle⟩
  obtain ⟨ext, hrefs⟩ := h'.refs
  suffices hwp : wp any (dispatch request) { s with cur := p } fun _ last =>
      WritersOk last from hperforms.of_wp hwp
  cases request with
  | openFile path flags =>
    refine wp_seq (wp_and (sys_open_spec hrefs.cache_ok) (h'.clean.sys_open hrefs.cache_ok)) ?_
    intro r last ⟨hopen, hclean⟩
    exact ⟨⟨ext, hrefs.opened hopen⟩, hclean, h'.opened hcond hopen⟩
  | closeFile fd =>
    exact wp_seq sys_close_spec fun r last hclose => h'.closed hcond hclose
  | fork =>
    exact wp_seq sys_fork_spec fun r last hfork => h'.forked hfork
  | exit =>
    exact wp_seq (h'.exited hcond) fun _ last hlast => hlast
  | read | write | unlink | lseek | getcwd | chdir | mkdir | rmdir | opendir | closedir | stat =>
    exact hcall.elim

/-- In every state that is reached by calls that meet the conditions, an inode has at most one
writer, and `write_deny` tells whether it has one. -/
theorem single_writer_of_run {s last : Kernel} (h : WritersOk s)
    (hrun : Run (fun s p request => FdCall request ∧ WritesSafely s p request) s last) :
    SingleWriter last := by
  have hlast : WritersOk last := Run.invariant
    (fun s p request answer last hs hcond hperforms => hs.step hcond.1 hcond.2 hperforms) hrun h
  exact hlast.single

/-! ## Two runs -/

theorem mounted_writers {startLba secCnt : UInt32} {heap : Heap} (hlo : 1200 < secCnt.toNat)
    (hdisk : startLba.toNat + secCnt.toNat ≤ maxLba + 1) (hinodes : ∀ q, s.inodes q = none)
    (hrefs : ∃ ext, RefsOk ext (mountedKernel s startLba secCnt heap p)) :
    WritersOk (mountedKernel s startLba secCnt heap p) := by
  refine ⟨hrefs, mounted_clean hlo hdisk hinodes, fun q hq inode hinode => ?_⟩
  have hzero : writers (mountedKernel s startLba secCnt heap p) q = 0 :=
    writers_eq_zero fun _ _ => by simp [mountedKernel]
  obtain rfl : q = p := by simpa [mountedKernel] using hq
  obtain rfl : { rootInode (formatSuperBlock startLba secCnt) with iOpenCnts := 1 } = inode := by
    simpa [mountedKernel] using hinode
  simp [hzero, rootInode, inodeInit, INode.setSector]

theorem booted_writers : WritersOk booted := by
  obtain ⟨heap, p, -, hbooted⟩ := booted_mounted
  rw [hbooted]
  exact mounted_writers (by decide) (by decide) (fun _ => rfl) ⟨_, hbooted ▸ booted_handles.refs⟩

/-! ## The inode table -/

/-- The counts of the open inodes are right, and the inode table is clean. -/
def RefsClean (s : Kernel) : Prop := (∃ ext, RefsOk ext s) ∧ TableClean s

theorem RefsClean.with_tasks (h : RefsClean s) (tasks : Ptr → Option Task) :
    RefsClean { s with tasks := tasks } := by
  obtain ⟨⟨ext, hrefs⟩, hclean⟩ := h
  exact ⟨⟨ext, hrefs.with_tasks tasks⟩, hclean.of_inodes rfl rfl rfl⟩

theorem RefsClean.closed (h : RefsClean s) (hclose : Closed s fd r last) : RefsClean last := by
  obtain ⟨⟨ext, hrefs⟩, hclean⟩ := h
  exact ⟨⟨ext, hrefs.closed hclose⟩, hclean.closed hclose⟩

/-- Every call keeps the counts right and the table clean. -/
theorem RefsClean.step (h : RefsClean s) (hcall : FdCall request)
    (hperforms : Performs s p request answer last) : RefsClean last := by
  obtain ⟨⟨ext, hrefs⟩, hclean⟩ := h
  have hrefs : RefsOk ext { s with cur := p } := CountedBy.congr hrefs le_rfl rfl fun _ => rfl
  have hclean : TableClean { s with cur := p } := hclean.of_inodes rfl rfl rfl
  have h : RefsClean { s with cur := p } := ⟨⟨ext, hrefs⟩, hclean⟩
  suffices hwp : wp any (dispatch request) { s with cur := p } fun _ last =>
      RefsClean last from hperforms.of_wp hwp
  cases request with
  | openFile path flags =>
    refine wp_seq (wp_and (sys_open_spec hrefs.cache_ok) (hclean.sys_open hrefs.cache_ok)) ?_
    intro r last ⟨hopen, hlast⟩
    exact ⟨⟨ext, hrefs.opened hopen⟩, hlast⟩
  | closeFile fd => exact wp_seq sys_close_spec fun _ last hclose => h.closed hclose
  | fork =>
    refine wp_seq sys_fork_spec fun r last hfork => ?_
    cases hfork with
    | failed hlast hr => exact ⟨hlast.refs ext hrefs, hclean.counts_raised hlast⟩
    | forked mid child parent pid hmid hparent hnew hold hr hlast =>
      obtain ⟨ext', hrefs'⟩ := hmid.refs ext hrefs
      subst hlast
      exact ⟨⟨ext', CountedBy.congr hrefs' le_rfl rfl fun _ => rfl⟩,
        (hclean.counts_raised hmid).of_inodes rfl rfl rfl⟩
  | exit =>
    refine wp_seq (sys_exit_rule (I := fun _ => RefsClean) (fun s fd _ _ hs _ =>
      wp_mono sys_close_spec fun _ _ hclose => hs.closed hclose) (fun _ _ _ hs _ _ => hs)
      (fun _ s last htouched hs => htouched.2.2 ▸ hs.with_tasks _) h) ?_
    rintro _ last ⟨mid, task, hmid, -, rfl⟩
    exact hmid.with_tasks _
  | read | write | unlink | lseek | getcwd | chdir | mkdir | rmdir | opendir | closedir | stat =>
    exact hcall.elim

/-- Whatever files processes open, create, share and close, no record of the inode table denies
writing, and no inode has an address in front of the data area. -/
theorem table_clean_of_run (h : RefsClean s)
    (hrun : Run (fun _ _ request => FdCall request) s last) : TableClean last :=
  (Run.invariant (fun _ _ _ _ _ hs hcall hp => hs.step hcall hp) hrun h).2

/-- `/f` is created for writing. -/
theorem table_clean_created : TableClean (booted.after 1 (.openFile [slash, 102] 5)) := by
  obtain ⟨answer, hperforms⟩ := performs_after
    (show booted.returns 1 (.openFile [slash, 102] 5) = true by decide +kernel)
  exact table_clean_of_run ⟨booted_writers.refs, booted_writers.clean⟩
    (.single ⟨1, .openFile [slash, 102] 5, answer, trivial, hperforms⟩)

/-- The kernel after `/f` was created. -/
def fileCreated : Kernel := Kernel.booted.after 1 (.openFile [slash, 102] 4)

/-- The kernel after `/f` was created and closed. -/
def createdClosed : Kernel := fileCreated.after 1 (.closeFile 3)

/-- The kernel after `/f` was created, closed and opened for writing. -/
def openForWriting : Kernel := createdClosed.after 1 (.openFile [slash, 102] 1)

theorem single_writer_open_for_writing :
    Run (fun s p request => FdCall request ∧ WritesSafely s p request) booted
      openForWriting ∧
    (∃ p ∈ openForWriting.openInodes, writers openForWriting p = 1) ∧
    SingleWriter openForWriting := by
  obtain ⟨answer1, h1⟩ := performs_after
    (show Kernel.booted.returns 1 (.openFile [slash, 102] 4) = true by decide +kernel)
  obtain ⟨answer2, h2⟩ := performs_after
    (show fileCreated.returns 1 (.closeFile 3) = true by decide +kernel)
  obtain ⟨answer3, h3⟩ := performs_after
    (show createdClosed.returns 1 (.openFile [slash, 102] 1) = true by decide +kernel)
  have hsafe1 : WritesSafely booted 1 (.openFile [slash, 102] 4) :=
    fun hwrite => absurd hwrite (by decide)
  have hsafe2 : WritesSafely fileCreated 1 (.closeFile 3) := by
    have hnone : ∀ i < maxFileOpen, writerSlot { fileCreated with cur := 1 } i = none := by
      decide +kernel
    intro _ _ _ _ _ _ _ i hi _ hslot
    simp [hnone i hi] at hslot
  have hsafe3 : WritesSafely createdClosed 1 (.openFile [slash, 102] 1) := by
    refine fun _ _ => ⟨fun hcreat => absurd hcreat (by decide), fun _ => ?_⟩
    decide +kernel
  have hrun : Run (fun s p request => FdCall request ∧ WritesSafely s p request) booted
      openForWriting :=
    ((Relation.ReflTransGen.single
      ⟨1, .openFile [slash, 102] 4, answer1, ⟨trivial, hsafe1⟩, h1⟩).tail
      ⟨1, .closeFile 3, answer2, ⟨trivial, hsafe2⟩, h2⟩).tail
      ⟨1, .openFile [slash, 102] 1, answer3, ⟨trivial, hsafe3⟩, h3⟩
  refine ⟨hrun, by decide +kernel, single_writer_of_run booted_writers hrun⟩

/-- A file that is created for writing has a writer, but its flag is clear. -/
theorem not_single_writer_after_create : Run (fun _ _ request => FdCall request) booted
      (Kernel.booted.after 1 (.openFile [slash, 102] 5)) ∧
    ¬SingleWriter (Kernel.booted.after 1 (.openFile [slash, 102] 5)) := by
  obtain ⟨answer, hperforms⟩ := performs_after
    (show Kernel.booted.returns 1 (.openFile [slash, 102] 5) = true by decide +kernel)
  refine ⟨.single ⟨1, .openFile [slash, 102] 5, answer, trivial, hperforms⟩, fun h => ?_⟩
  have hbad : ∃ p ∈ (Kernel.booted.after 1 (.openFile [slash, 102] 5)).openInodes,
      writers (Kernel.booted.after 1 (.openFile [slash, 102] 5)) p = 1 ∧
      ((Kernel.booted.after 1 (.openFile [slash, 102] 5)).inodes p).any
        (fun inode => inode.writeDeny = false) = true := by decide +kernel
  obtain ⟨p, hp, hone, hclear⟩ := hbad
  obtain ⟨inode, hinode, hdeny⟩ := (Option.any_eq_true _ _).1 hclear
  have := (h p hp inode hinode).2.2 hone
  simp [this] at hdeny

end LosKernel
