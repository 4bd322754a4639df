import LosKernel.Fs.Handles
import LosKernel.Lib.Search

/-!
# Opening and closing

What `sys_open`, `sys_close`, `sys_opendir` and `sys_closedir` do to the handles. `Opened` lists
the outcomes of `sys_open`: it fails, it creates a file, or it opens an existing file; then the
directory that the search left open stays open.
-/

namespace LosKernel

open Prog hiding update
open Function (update update_of_ne update_self)

variable {s last cur next : Kernel} {p d : Ptr} {flag flags n : UInt32} {path name : CStr}
  {idx fd : Nat} {r : Int} {inode : INode} {dir : Option UInt32} {task : Task} {file : File}

/-! ## Descriptors -/

/-- `pcb_fd_install` for slot `idx` returned `r` and left the tasks `tasks`. -/
def FdInstalled (s : Kernel) (idx : Nat) (r : Int) (tasks : Ptr → Option Task) : Prop :=
  ∃ task, s.tasks s.cur = some task ∧
    (findFd task (maxFilesOpenPerProc - 3) 3 = none ∧ r = -1 ∧ tasks = s.tasks ∨
      ∃ fd : Nat, findFd task (maxFilesOpenPerProc - 3) 3 = some fd ∧ r = fd ∧
        tasks = update s.tasks s.cur (some (task.setFd fd idx)))

/-- `pcb_fd_install` takes a free descriptor, if there is one. -/
theorem pcb_fd_install_spec : wp any (pcbFdInstall idx) s fun r last =>
      FdInstalled s idx r last.tasks ∧ last = { s with tasks := last.tasks } := by
  simp only [pcbFdInstall, wp_bind, wp_running_thread, and_any]
  intro task htask
  cases hfd : findFd task (maxFilesOpenPerProc - 3) 3 with
  | none => exact ⟨⟨task, htask, .inl ⟨hfd, rfl, rfl⟩⟩, rfl⟩
  | some fd => exact ⟨⟨task, htask, .inr ⟨fd, hfd, rfl, rfl⟩⟩, rfl⟩

theorem find_slot_is_search (table : Nat → File) :
    IsSearch (findSlot table) fun idx => (table idx).fdInode = none where
  zero _ := rfl
  hit _ _ h := if_pos h
  miss _ _ h := if_neg h

theorem find_fd_is_search (task : Task) : IsSearch (findFd task) fun fd => task.fd fd = -1 where
  zero _ := rfl
  hit _ _ h := if_pos h
  miss _ _ h := if_neg h

theorem fd_set_fd_same (hfd : fd < 8) (value : Int) :
    (task.setFd fd value).fd fd = value := by
  simp [Task.fd, Task.setFd, hfd]

theorem fd_set_fd_ne {fd' : Nat} (hne : fd' ≠ fd) (value : Int) :
    (task.setFd fd value).fd fd' = task.fd fd' := by
  simp [Task.fd, Task.setFd, hne]

/-! ## Opening an existing file -/

/-- `file_open` of inode `n` returned `r` and left the state `last`. -/
inductive FileOpened (s : Kernel) (n flag : UInt32) (r : Int) (last : Kernel) : Prop where
  | full (hr : r = -1) (hlast : last = s)
  | denied (idx : Nat) (p : Ptr) (mid : Kernel) (inode : INode)
      (hslot : findSlot s.fileTable (maxFileOpen - 3) 3 = some idx)
      (hopen : InodeOpened s n p mid) (hinode : mid.inodes p = some inode)
      (hwrite : writeFlag flag = true) (hdeny : inode.writeDeny = true) (hr : r = -1)
      (hlast : last = { mid with
        fileTable := update mid.fileTable idx ⟨0, flag, some p⟩ })
  | opened (idx : Nat) (p : Ptr) (mid : Kernel) (inode : INode) (tasks : Ptr → Option Task)
      (hslot : findSlot s.fileTable (maxFileOpen - 3) 3 = some idx)
      (hopen : InodeOpened s n p mid) (hinode : mid.inodes p = some inode)
      (hdeny : writeFlag flag = true → inode.writeDeny = false)
      (hinstall : FdInstalled s idx r tasks)
      (hlast : last = { mid with
        inodes := update mid.inodes p
          (some { inode with writeDeny := writeFlag flag || inode.writeDeny })
        fileTable := update mid.fileTable idx ⟨0, flag, some p⟩
        tasks := tasks })

/-- What a `file_open` that returns does. -/
theorem file_open_spec : wp any (fileOpen n flag) s fun r last => FileOpened s n flag r last := by
  simp only [fileOpen, getFreeSlotInGlobal, wp_bind, wp_state]
  cases hslot : findSlot s.fileTable (maxFileOpen - 3) 3 with
  | none => exact .full rfl rfl
  | some idx =>
    refine wp_seq (inode_open_spec (.inl fun _ => trivial)) fun p mid hopen => ?_
    obtain ⟨cnt, hinode⟩ := hopen.version
    set inode : INode := { inodeVersion s n with iOpenCnts := cnt } with hi
    have hsame : mid.fileTable = s.fileTable ∧ mid.tasks = s.tasks ∧ mid.cur = s.cur := by
      rw [hopen.frame]
      exact ⟨rfl, rfl, rfl⟩
    obtain ⟨-, htasks, hcur⟩ := hsame
    simp only [wp_bind, wp_store_file, wp_ite, wp_deref_inode, hinode, of_some, wp_store_inode]
    refine ⟨fun hwrite => ⟨fun hdeny => ?_, fun hdeny => ?_⟩, fun hwrite => ?_⟩
    · exact .denied idx p mid inode hslot hopen hinode hwrite hdeny rfl rfl
    · refine wp_mono pcb_fd_install_spec ?_
      rintro r last ⟨hinstall, hlast⟩
      refine .opened idx p mid inode last.tasks hslot hopen hinode (fun _ => by simpa using hdeny)
        ?_ (by simpa [hwrite] using hlast)
      simpa only [FdInstalled, htasks, hcur] using hinstall
    · refine wp_mono pcb_fd_install_spec ?_
      rintro r last ⟨hinstall, hlast⟩
      refine .opened idx p mid inode last.tasks hslot hopen hinode (fun h => absurd h hwrite)
        ?_ ?_
      · simpa only [FdInstalled, htasks, hcur] using hinstall
      · have hself : update mid.inodes p (some inode) = mid.inodes := by
          rw [← hinode, Function.update_eq_self]
        simpa only [hwrite, Bool.false_or, hself] using hlast

theorem FileOpened.dirs_eq (h : FileOpened s n flag r last) :
    s.heap.requests ≤ last.heap.requests ∧ last.dirs = s.dirs := by
  cases h with
  | full hr hlast => exact hlast ▸ ⟨Nat.le_refl _, rfl⟩
  | denied idx p mid inode hslot hopen hinode hwrite hdeny hr hlast =>
    exact hlast ▸ ⟨hopen.requests_le, hopen.dirs_eq⟩
  | opened idx p mid inode tasks hslot hopen hinode hdeny hinstall hlast =>
    exact hlast ▸ ⟨hopen.requests_le, hopen.dirs_eq⟩

/-! ## Creating a file -/

/-- `s` with a new open file: the inode at `p` and the slot `idx`. -/
def withFile (s : Kernel) (p : Ptr) (inode : INode) (idx : Nat) (file : File)
    (tasks : Ptr → Option Task) : Kernel :=
  { s with
    openInodes := p :: s.openInodes
    inodes := update s.inodes p (some inode)
    fileTable := update s.fileTable idx file
    tasks := tasks }

/-- `new` is the file table after a creation that failed: the free slot it had taken is zero. -/
def SlotsCleared (old new : Nat → File) : Prop :=
  new = old ∨ ∃ idx, findSlot old (maxFileOpen - 3) 3 = some idx ∧
    new = update old idx ⟨0, 0, none⟩

/-- `file_create` returned `r` and left the state `last`. -/
inductive FileCreated (s : Kernel) (flag : UInt32) (r : Int) (last : Kernel) : Prop where
  | failed (fileTable : Nat → File) (hslots : SlotsCleared s.fileTable fileTable)
      (hlast : HandleFrame { s with fileTable := fileTable } last) (hr : r = -1)
  | created (base : Kernel) (p : Ptr) (inode : INode) (idx : Nat) (tasks : Ptr → Option Task)
      (hbase : HandleFrame s base) (hnew : s.heap.requests < p) (hp : p ≤ base.heap.requests)
      (hcnt : inode.iOpenCnts = 1) (hdeny : inode.writeDeny = false)
      (hslot : findSlot s.fileTable (maxFileOpen - 3) 3 = some idx)
      (hinstall : FdInstalled s idx r tasks)
      (hlast : last = withFile base p inode idx ⟨0, flag, some p⟩ tasks)
      (hscan : bitmapScan s.part.inodeBitmap 1 ≠ none)

theorem FileCreated.failed_frame (h : HandleFrame s last) : FileCreated s flag (-1) last :=
  .failed s.fileTable (Or.inl rfl) h rfl

/-- A file on its way into the tables: the inode is in memory and the slot is taken. -/
def staged (s : Kernel) (p : Ptr) (inode : INode) (idx : Nat) (file : File) : Kernel :=
  { s with
    inodes := update s.inodes p (some inode)
    fileTable := update s.fileTable idx file }

/-- Work on blocks while a file is staged, with the file taken out again. -/
theorem unstage (hnone : s.inodes p = none) (h : FsFrame (staged s p inode idx file) next)
    (fileTable : Nat → File) :
    HandleFrame { s with fileTable := fileTable }
      { next with
        fileTable := fileTable
        inodes := update next.inodes p none } where
  requests := h.requests
  rest := by
    have hbits : next.part.inodeBitmap = s.part.inodeBitmap := h.inode_bitmap_eq
    conv_lhs => rw [h.rest]
    simp [staged, hbits]
  tags := by
    intro q
    by_cases hq : q = p
    · subst hq
      simp [hnone]
    · have := h.tags q
      simpa [staged, update_of_ne hq] using this

/-- The last steps of `file_create` put the file into the tables. -/
theorem finish_create_spec {ioBuf : Ptr} (hnone : s.inodes p = none)
    (hdeny : inode.writeDeny = false) (h : FsFrame (staged s p inode idx ⟨0, flag, some p⟩) next) :
    wp any (finishCreate d n p ioBuf idx) next fun r last =>
      ∃ base inode' tasks, HandleFrame s base ∧ inode'.iOpenCnts = 1 ∧ inode'.writeDeny = false ∧
        FdInstalled s idx r tasks ∧
        last = withFile base p inode' idx ⟨0, flag, some p⟩ tasks := by
  simp only [finishCreate, wp_bind]
  refine wp_mono (keeps_dir_inode d next) fun parent s1 h1 => ?_
  refine wp_mono (keeps_inode_sync _ _ s1) fun _ s2 h2 => ?_
  refine wp_mono (keeps_deref_inode p s2) fun _ s3 h3 => ?_
  refine wp_mono (keeps_inode_sync _ _ s3) fun _ s4 h4 => ?_
  refine wp_mono (keeps_bitmap_sync _ _ s4) fun _ s5 h5 => ?_
  have h5 : FsFrame (staged s p inode idx ⟨0, flag, some p⟩) s5 :=
    h.trans ((((h1.trans h2).trans h3).trans h4).trans h5)
  obtain ⟨new, hnew, htag⟩ := h5.handle.inode_of_eq_some (update_self ..)
  have hdeny' : new.writeDeny = false := (congrArg (fun tag => tag.2.2) htag).trans hdeny
  simp only [wp_update, wp_deref_inode, hnew, of_some, wp_store_inode, wp_sys_free]
  refine wp_mono pcb_fd_install_spec ?_
  rintro r last ⟨hinstall, hlast⟩
  have hbase := unstage hnone h5 s.fileTable
  refine ⟨_, { new with iOpenCnts := 1 }, last.tasks,
    hbase.trans (.free _ ioBuf), rfl, hdeny', ?_, ?_⟩
  · have htasks : s5.tasks = s.tasks := h5.handle.tasks_eq
    have hcur : s5.cur = s.cur := by rw [h5.rest]; rfl
    simpa only [FdInstalled, htasks, hcur] using hinstall
  · have htable : s5.fileTable = update s.fileTable idx ⟨0, flag, some p⟩ :=
      h5.handle.file_table_eq
    rw [hlast]
    simp [withFile, htable]

theorem inode_bitmap_alloc_scan : wp any inodeBitmapAlloc s fun r _ =>
      r.isSome = true → bitmapScan s.part.inodeBitmap 1 ≠ none := by
  rw [wp_inode_bitmap_alloc]
  exact ⟨fun _ => by simp, fun i hi => by simp [hi]⟩

/-- What a `file_create` that returns does. -/
theorem file_create_spec (hc : CacheOk s) :
    wp any (fileCreate d name flag) s fun r last => FileCreated s flag r last := by
  refine wp_seq (keeps_sys_malloc _ s) fun r s1 h1 => ?_
  cases r with
  | none => exact .failed_frame h1.handle
  | some ioBuf =>
    refine wp_seq (wp_and (keeps_inode_bitmap_alloc s1) inode_bitmap_alloc_scan) ?_
    rintro r s2 ⟨h2, hscan⟩
    rw [h1.inode_bitmap_eq] at hscan
    have h02 : HandleFrame s s2 := h1.handle.trans h2
    have hnone : s2.inodes (s2.heap.requests + 1) = none :=
      (h02.cache_ok hc).fresh _ (Nat.lt_succ_self _)
    have htable : s2.fileTable = s.fileTable := h02.file_table_eq
    cases r with
    | none => exact .failed_frame h02
    | some n =>
      simp only [mallocKernalInode, wp_bind, wp_sys_malloc]
      refine ⟨fun _ => ?_, fun _ => ?_⟩
      · set s3 : Kernel := { s2 with heap := s2.heap.served } with hs3
        have h03 : HandleFrame s s3 :=
          h02.trans (.of_heap s2 (Nat.le_succ _))
        have hnone3 : s3.inodes (s2.heap.requests + 1) = none := hnone
        simp only [wp_bind, wp_store_inode, getFreeSlotInGlobal, wp_state, wp_pure]
        cases hslot : findSlot s2.fileTable (maxFileOpen - 3) 3 with
        | none =>
          have hback : update s3.inodes (s2.heap.requests + 1) none = s3.inodes := by
            rw [← hnone3, Function.update_eq_self]
          simp only [freeInode, wp_bind, wp_update, wp_sys_free, Function.update_idem, hback]
          refine wp_mono (keeps_inode_bitmap_set _ _ _) fun _ s4 h4 => ?_
          exact .failed_frame (((h03.trans (.free s3 _)).trans h4).trans (.free s4 ioBuf))
        | some idx =>
          simp only [wp_bind, wp_store_file]
          refine wp_mono (keeps_create_dir_entry _ _ _ _) fun e s4 h4 => ?_
          refine wp_mono (keeps_sync_dir_entry _ _ s4) fun ok s5 h5 => ?_
          have h35 : FsFrame (staged s3 (s2.heap.requests + 1) (inodeInit n) idx
              ⟨0, flag, some (s2.heap.requests + 1)⟩) s5 := h4.trans h5
          rw [wp_ite]
          refine ⟨fun _ => ?_, fun _ => ?_⟩
          · refine wp_mono (finish_create_spec hnone3 rfl h35) ?_
            rintro r last ⟨base, inode, tasks, hbase, hcnt, hdeny, hinstall, hlast⟩
            refine .created base _ inode idx tasks (h03.trans hbase)
              (Nat.lt_succ_of_le h02.requests) hbase.requests hcnt hdeny (htable ▸ hslot)
              ?_ hlast (hscan rfl)
            have htasks : s3.tasks = s.tasks := h03.tasks_eq
            have hcur : s3.cur = s.cur := by rw [h03.rest]
            simpa only [FdInstalled, htasks, hcur] using hinstall
          · simp only [freeInode, wp_bind, wp_update, wp_sys_free, wp_store_file]
            refine wp_mono (keeps_inode_bitmap_set _ _ _) fun _ s6 h6 => ?_
            have htable5 : s5.fileTable = update s.fileTable idx
                ⟨0, flag, some (s2.heap.requests + 1)⟩ := by
              rw [h35.handle.file_table_eq, ← htable]
              rfl
            refine .failed (update s.fileTable idx ⟨0, 0, none⟩)
              (.inr ⟨idx, htable ▸ hslot, rfl⟩) ?_ rfl
            have hundo := unstage hnone3 h35 (update s5.fileTable idx ⟨0, 0, none⟩)
            rw [htable5, Function.update_idem] at hundo h6
            exact ((((h03.with_file_table _).trans hundo).trans (.free _ _)).trans h6).trans
              (.free s6 ioBuf)
      · refine wp_mono (keeps_inode_bitmap_set _ _ _) fun _ s3 h3 => ?_
        refine wp_mono (keeps_sys_free _ s3) fun _ s4 h4 => ?_
        have hrefused : HandleFrame s2 { s2 with heap := s2.heap.refused } :=
          .of_heap s2 (Nat.le_succ _)
        exact .failed_frame (((h02.trans hrefused).trans h3).trans h4.handle)

/-- Closing a directory does not touch a file that was added to the tables. -/
theorem dir_close_with_file {ok : Stop → Prop} {tasks : Ptr → Option Task}
    {Q : Unit → Kernel → Prop} (hne : d ≠ rootDir → ∀ e, s.dirs.lookup d = some e → e.inode ≠ p)
    (h : wp ok (dirClose d) s fun u last => Q u (withFile last p inode idx file tasks)) :
    wp ok (dirClose d) (withFile s p inode idx file tasks) Q := by
  unfold dirClose at h ⊢
  rw [wp_ite] at h ⊢
  refine ⟨h.1, fun hd => ?_⟩
  have hrest := h.2 hd
  simp only [wp_bind, wp_deref_dir, wp_inode_close] at hrest ⊢
  refine ⟨fun e he => ?_, hrest.2⟩
  have hep : e.inode ≠ p := hne hd e he
  have hinode : (withFile s p inode idx file tasks).inodes e.inode = s.inodes e.inode :=
    update_of_ne hep ..
  have hmem : e.inode ∈ (withFile s p inode idx file tasks).openInodes ↔
      e.inode ∈ s.openInodes := by simp [withFile, hep]
  obtain ⟨hbad, hclose⟩ := hrest.1 e he
  rw [hinode, hmem]
  refine ⟨hbad, fun old hold => ⟨fun h1 => ⟨fun hin => ?_, (hclose old hold).1 h1 |>.2⟩,
    fun h1 => ?_⟩⟩
  · have := ((hclose old hold).1 h1).1 hin
    simpa [withFile, dropInode, Function.update_comm hep, hep.symm] using this
  · have := (hclose old hold).2 h1
    simpa [withFile, Function.update_comm hep] using this

/-! ## `sys_open` -/

/-- `sys_open` finds a regular file under the whole path and opens it with `file_open`. -/
def OpensFile (s : Kernel) (path : CStr) (flags : UInt32) : Prop :=
  path.getLast? ≠ some slash ∧ (lookup s path).fileType ≠ .directory ∧
    (components path).length = (components (lookup s path).searchedPath).length ∧
    (lookup s path).inodeNo ≠ noInode ∧ flags &&& oCreat = 0

/-- `sys_open` finds all directories of the path, does not find the file, and creates it with
`file_create`. -/
def CreatesFile (s : Kernel) (path : CStr) (flags : UInt32) : Prop :=
  path.getLast? ≠ some slash ∧ (lookup s path).fileType ≠ .directory ∧
    (components path).length = (components (lookup s path).searchedPath).length ∧
    (lookup s path).inodeNo = noInode ∧ flags &&& oCreat ≠ 0

/-- `sys_open` returned `r` and left the state `last`. -/
inductive Opened (s : Kernel) (path : CStr) (flags : UInt32) (r : Int) (last : Kernel) : Prop where
  | failed (fileTable : Nat → File) (hslots : SlotsCleared s.fileTable fileTable)
      (hlast : HandleFrame { s with fileTable := fileTable } last) (hr : r = -1)
  | created (base : Kernel) (p : Ptr) (inode : INode) (idx : Nat) (tasks : Ptr → Option Task)
      (hflags : flags &&& oCreat ≠ 0) (hbase : HandleFrame s base) (hnew : s.heap.requests < p)
      (hp : p ≤ base.heap.requests) (hcnt : inode.iOpenCnts = 1) (hdeny : inode.writeDeny = false)
      (hslot : findSlot s.fileTable (maxFileOpen - 3) 3 = some idx)
      (hinstall : FdInstalled s idx r tasks)
      (hlast : last = withFile base p inode idx ⟨0, flags, some p⟩ tasks)
      (hscan : bitmapScan s.part.inodeBitmap 1 ≠ none)
      (hcreates : HeapOk s → CreatesFile s path flags)
  | reopened (d : Ptr) (cur : Kernel) (hopens : OpensFile s path flags)
      (hheld : DirHeld s (lookup s path).parent d cur)
      (hopen : FileOpened cur (lookup s path).inodeNo flags r last)

theorem Opened.failed_frame (h : HandleFrame s last) : Opened s path flags (-1) last :=
  .failed s.fileTable (Or.inl rfl) h rfl

/-- The inode of a held directory lies at an address that was handed out. -/
theorem DirHeld.inode_le {e : Dir} (hc : CacheOk s) (h : DirHeld s dir d cur) (hd : d ≠ rootDir)
    (he : cur.dirs.lookup d = some e) : e.inode ≤ cur.heap.requests := by
  cases h with
  | root h => exact absurd rfl hd
  | opened h =>
    obtain ⟨p, mid, hopen, -, -, rfl⟩ := h
    obtain rfl : e = ⟨p, 0⟩ := by simpa using he.symm
    obtain ⟨cnt, hinode⟩ := hopen.version
    refine Nat.le_of_not_lt fun hlt => ?_
    have hfresh := (hopen.cache_ok hc).fresh p hlt
    simp [hinode] at hfresh

theorem DirHeld.requests_le (h : DirHeld s dir d cur) : s.heap.requests ≤ cur.heap.requests := by
  cases h with
  | root h =>
    obtain ⟨heap, hheap, rfl⟩ := h
    exact hheap
  | opened h =>
    obtain ⟨p, mid, hopen, -, -, rfl⟩ := h
    exact hopen.requests_le

theorem create_in_held (hc : CacheOk s) (hheld : DirHeld s dir d cur)
    (hflags : flags &&& oCreat ≠ 0) (hcreates : HeapOk s → CreatesFile s path flags) :
    wp any (do let fd ← fileCreate d name flags; dirClose d; pure fd) cur
      fun r last => Opened s path flags r last := by
  have htable : cur.fileTable = s.fileTable := by rw [hheld.frame]
  have htasks : cur.tasks = s.tasks := by rw [hheld.frame]
  have hcur : cur.cur = s.cur := by rw [hheld.frame]
  simp only [wp_bind]
  refine wp_mono (file_create_spec (hheld.cache_ok hc)) ?_
  intro r next hnext
  cases hnext with
  | failed fileTable hslots hlast hr =>
    subst hr
    have hheld' := hheld.with_tables (fun _ => fileTable) id
    refine wp_mono (dir_close_after (hc.with_tables _ _) hheld' hlast) fun _ last h => ?_
    exact .failed fileTable (htable ▸ hslots) h rfl
  | created base p inode idx tasks hbase hnew hp hcnt hdeny hslot hinstall hlast hscan =>
    subst hlast
    rw [hheld.part_eq] at hscan
    -- the new inode lies past everything the directory refers to
    refine dir_close_with_file (fun hd e he => ?_)
      (wp_mono (wp_and (dir_close_after hc hheld hbase) dir_close_frame) ?_)
    · rw [hbase.dirs_eq] at he
      exact Nat.ne_of_lt (Nat.lt_of_le_of_lt (hheld.inode_le hc hd he) hnew)
    · rintro _ last ⟨h, hreq, _⟩
      simp only [FdInstalled, htasks, hcur] at hinstall
      exact .created last p inode idx tasks hflags h (Nat.lt_of_le_of_lt hheld.requests_le hnew)
        (hreq ▸ hp) hcnt hdeny (htable ▸ hslot) hinstall rfl hscan hcreates

/-- `sys_open` has one of the outcomes of `Opened`. -/
theorem sys_open_spec (hc : CacheOk s) :
    wp any (sysOpen path flags) s fun r last => Opened s path flags r last := by
  simp only [sysOpen, wp_bind, wp_access, wp_assert, and_any, wp_ite]
  refine fun _ => ⟨fun _ => .failed_frame (HandleFrame.refl s), fun hlast _ => ?_⟩
  refine wp_mono path_depth_cnt_spec ?_
  rintro _ s' ⟨hs, rfl⟩
  rw [hs]
  refine wp_mono (search_file_spec (G := fun _ => True) hc (.inl fun _ => trivial)) ?_
  rintro ⟨n, found⟩ cur hsearched
  have hheld : ∃ dir, DirHeld s dir found.parentDir cur := by
    rcases hsearched with h | ⟨-, _, -, -, h⟩
    · exact ⟨_, h.held⟩
    · exact ⟨_, h.held⟩
  obtain ⟨dir, hheld⟩ := hheld
  have hfail : wp any (closeAndFail found.parentDir) cur
      fun r last => Opened s path flags r last := by
    refine wp_mono (close_and_fail_holding hc ⟨dir, cur, hheld, HandleFrame.refl cur⟩) ?_
    rintro r last ⟨rfl, hlast⟩
    exact .failed_frame hlast
  simp only [openFound, wp_ite]
  refine ⟨fun _ => hfail, fun hdir => ?_⟩
  refine wp_seq path_depth_cnt_spec ?_
  rintro _ _ ⟨rfl, rfl⟩
  simp only [wp_ite]
  refine ⟨fun _ => hfail, fun hdepth => ⟨fun _ => hfail, fun hmiss =>
    ⟨fun _ => hfail, fun hnew => ⟨fun hcreat => create_in_held hc hheld hcreat fun hheap => ?_,
      fun hcreat => ?_⟩⟩⟩⟩
  · rcases hsearched with ⟨hno, hpath, htype, -⟩ | ⟨hno, -⟩
    · refine ⟨hlast, htype ▸ hdir, ?_, ?_, hcreat⟩
      · rw [← hpath]
        exact not_not.1 hdepth
      · rw [← hno]
        by_contra hne
        exact hnew ⟨hne, hcreat⟩
    · exact absurd hheap hno
  have hopens : n ≠ noInode := fun h => hmiss ⟨h, not_not.1 hcreat⟩
  rcases hsearched with ⟨hno, hpath, htype, hheld⟩ | ⟨-, found', hno', -, h⟩
  · subst hno
    refine wp_mono file_open_spec fun r last h => ?_
    refine .reopened _ _ ⟨hlast, htype ▸ hdir, ?_, hopens, not_not.1 hcreat⟩ hheld h
    rw [← hpath]
    exact not_not.1 hdepth
  · exact absurd (h.inodeNo.trans hno') hopens

theorem Opened.requests_le (h : Opened s path flags r last) :
    s.heap.requests ≤ last.heap.requests := by
  cases h with
  | failed fileTable hslots hlast hr => exact hlast.requests
  | created base p inode idx tasks hflags hbase hnew hp hcnt hdeny hslot hinstall hlast =>
    exact hlast ▸ hbase.requests
  | reopened d cur hopens hheld hopen => exact hheld.requests_le.trans hopen.dirs_eq.1

/-- What `sys_open` does to the tables: it clears a free slot at most, or fills it and enters it in
the table of the process. -/
theorem Opened.tables (h : Opened s path flags r last) :
    r = -1 ∧ last.tasks = s.tasks ∧ SlotsCleared s.fileTable last.fileTable ∨
      ∃ idx p, findSlot s.fileTable (maxFileOpen - 3) 3 = some idx ∧ p ∈ last.openInodes ∧
        last.fileTable = update s.fileTable idx ⟨0, flags, some p⟩ ∧
        (r = -1 ∧ last.tasks = s.tasks ∨ FdInstalled s idx r last.tasks) := by
  cases h with
  | failed fileTable hslots hlast hr =>
    refine .inl ⟨hr, hlast.tasks_eq, ?_⟩
    rw [hlast.file_table_eq]
    exact hslots
  | created base p inode idx tasks hflags hbase hnew hp hcnt hdeny hslot hinstall hlast =>
    subst hlast
    refine .inr ⟨idx, p, hslot, List.mem_cons_self, ?_, .inr hinstall⟩
    rw [withFile, hbase.file_table_eq]
  | reopened d cur hopens hheld hopen =>
    have htable : cur.fileTable = s.fileTable := by rw [hheld.frame]
    have htasks : cur.tasks = s.tasks := by rw [hheld.frame]
    have hcur : cur.cur = s.cur := by rw [hheld.frame]
    cases hopen with
    | full hr hlast =>
      subst hlast
      exact .inl ⟨hr, htasks, .inl htable⟩
    | denied idx p mid inode hslot hopen hinode hwrite hdeny hr hlast =>
      subst hlast
      have hmid : mid.fileTable = s.fileTable := by rw [hopen.frame, ← htable]
      refine .inr ⟨idx, p, htable ▸ hslot, hopen.mem, ?_, .inl ⟨hr, ?_⟩⟩
      · rw [hmid]
      · rw [← htasks, hopen.frame]
    | opened idx p mid inode tasks hslot hopen hinode hdeny hinstall hlast =>
      subst hlast
      have hmid : mid.fileTable = s.fileTable := by rw [hopen.frame, ← htable]
      refine .inr ⟨idx, p, htable ▸ hslot, hopen.mem, ?_, .inr ?_⟩
      · rw [hmid]
      · simpa only [FdInstalled, htasks, hcur] using hinstall

/-! ## Closing -/

/-- `last` is `s` after `inode_close` of the inode at `p`. -/
inductive InodeClosed (s : Kernel) (p : Ptr) (last : Kernel) : Prop where
  | dropped (inode : INode) (heap : Heap) (hinode : s.inodes p = some inode)
      (hcnt : inode.iOpenCnts = 1) (hmem : p ∈ s.openInodes)
      (hheap : heap.requests = s.heap.requests) (hlast : last = dropInode s heap p)
  | kept (inode : INode) (hinode : s.inodes p = some inode) (hcnt : inode.iOpenCnts ≠ 1)
      (hlast : last = { s with inodes := update s.inodes p (some { inode with
        iOpenCnts := if inode.iOpenCnts = 0 then 2 ^ 32 - 1 else inode.iOpenCnts - 1 }) })

/-- What an `inode_close` that returns does. -/
theorem inode_close_spec : wp any (inodeClose p) s fun _ last => InodeClosed s p last := by
  rw [wp_inode_close]
  refine ⟨fun _ => trivial, fun inode hinode => ⟨fun hcnt => ⟨fun hmem => ?_, fun _ => trivial⟩,
    fun hcnt => .kept inode hinode hcnt rfl⟩⟩
  exact .dropped inode ⟨s.heap.requests, s.heap.live.erase p⟩ hinode hcnt hmem rfl rfl

/-- `sys_close` of `fd` returned `r` and left the state `last`. -/
inductive Closed (s : Kernel) (fd : Int) (r : Int) (last : Kernel) : Prop where
  | ignored (hfd : fd ≤ 2) (hr : r = -1) (hlast : last = s)
  | closed (task : Task) (idx : Nat) (p : Ptr) (inode : INode) (mid : Kernel)
      (htask : s.tasks s.cur = some task) (hfd : 2 < fd ∧ fd < 8) (hslot : task.fd fd.toNat = idx)
      (hidx : idx < maxFileOpen) (hfile : (s.fileTable idx).fdInode = some p)
      (hinode : s.inodes p = some inode)
      (hclose : InodeClosed { s with
        inodes := update s.inodes p (some { inode with writeDeny := false }) } p mid)
      (hr : r = 0)
      (hlast : last = { mid with
        fileTable := update s.fileTable idx { s.fileTable idx with fdInode := none }
        tasks := update s.tasks s.cur (some (task.setFd fd.toNat (-1))) })

theorem InodeClosed.frame (h : InodeClosed s p last) : last = { s with
      heap := last.heap
      openInodes := last.openInodes
      inodes := last.inodes } := by
  cases h with
  | dropped inode heap hinode hcnt hmem hheap hlast => rw [hlast]; rfl
  | kept inode hinode hcnt hlast => rw [hlast]

theorem InodeClosed.requests_eq (h : InodeClosed s p last) :
    last.heap.requests = s.heap.requests := by
  cases h with
  | dropped inode heap hinode hcnt hmem hheap hlast => exact hlast ▸ hheap
  | kept inode hinode hcnt hlast => rw [hlast]

/-- What a `sys_close` that returns does. -/
theorem sys_close_spec {fd : Int} : wp any (sysClose fd) s fun r last => Closed s fd r last := by
  unfold sysClose
  rw [wp_ite]
  refine ⟨fun hfd => ?_, fun hfd => .ignored (by omega) rfl rfl⟩
  simp only [fdLocal2Global, fileClose, wp_bind, wp_running_thread, wp_access, wp_assert, and_any,
    wp_non_null, wp_deref_inode, wp_store_inode, wp_store_file, decide_eq_true_eq]
  intro task htask hlt hslot p hfile inode hinode
  refine wp_mono inode_close_spec fun _ mid hclose => ?_
  have hframe := hclose.frame
  have htasks : mid.tasks = s.tasks := by rw [hframe]
  have hcur : mid.cur = s.cur := by rw [hframe]
  have hfiles : mid.fileTable = s.fileTable := by rw [hframe]
  rw [htasks, hcur, hfiles]
  intro task' htask'
  obtain rfl : task = task' := Option.some.inj (htask.symm.trans htask')
  exact .closed task _ p inode mid htask ⟨hfd, hlt.2⟩ (Int.toNat_of_nonneg hslot.1).symm
    (by simpa [maxFileOpen] using hslot.2) hfile hinode hclose rfl (by rw [hcur])

end LosKernel
