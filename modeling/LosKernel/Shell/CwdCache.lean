import LosKernel.Fs.Getcwd
import LosKernel.Fs.RefExact
import LosKernel.Shell.CleanPath

/-!
# The directory in the prompt

The shell keeps the working directory as a path in `cwd_cache`, the kernel as an inode number. A
`cd` that changes the directory first clears more bytes of `cwd_cache` than the array has, so the
two agree as long as no `cd` succeeds. `CdHits` says which commands those are.
-/

namespace LosKernel

open Prog

variable {s last : Kernel} {sh : Shell} {α : Type} {c : Cmd}

/-! ## Commands that leave the working directory alone -/

/-- The counts of the open inodes are right, and the running process works in the root
directory. -/
structure AtRoot (s : Kernel) : Prop where
  refs : ∃ ext, RefsOk ext s
  task : ∃ task, s.tasks s.cur = some task ∧ task.cwdInodeNr = 0

/-- A process in the root directory is still there. -/
def StaysAtRoot (s last : Kernel) : Prop := AtRoot s → AtRoot last

instance : Std.Refl StaysAtRoot := ⟨fun _ h => h⟩

instance : IsTrans Kernel StaysAtRoot := ⟨fun _ _ _ h h' hs => h' (h hs)⟩

namespace AtRoot

theorem cache_ok (h : AtRoot s) : CacheOk s := by
  obtain ⟨ext, hrefs⟩ := h.refs
  exact hrefs.cache_ok

/-- The task table and the running process matter, and the counts. -/
theorem congr (h : AtRoot s) (hrefs : ∃ ext, RefsOk ext last) (htasks : last.tasks = s.tasks)
    (hcur : last.cur = s.cur) : AtRoot last :=
  ⟨hrefs, by rw [htasks, hcur]; exact h.task⟩

theorem of_handle_frame (h : AtRoot s) (hframe : HandleFrame s last) : AtRoot last := by
  obtain ⟨ext, hrefs⟩ := h.refs
  exact h.congr ⟨ext, hrefs.of_handle_frame hframe⟩ hframe.tasks_eq (by rw [hframe.rest])

end AtRoot

/-- A specification of a call for a process in the root directory. -/
theorem keeps_at_root {m : Call α} (h : ∀ s, AtRoot s → wp any m s fun _ last => AtRoot last) :
    Keeps StaysAtRoot m := fun s =>
  wp_any_iff.2 fun value last hdone hs => wp_any_iff.1 (h s hs) value last hdone

theorem keeps_at_root_of_frame {m : Call α}
    (h : ∀ s, CacheOk s → wp any m s fun _ last => HandleFrame s last) :
    Keeps StaysAtRoot m :=
  keeps_at_root fun s hs => wp_mono (h s hs.cache_ok) fun _ _ => hs.of_handle_frame

theorem keeps_at_root_of_fs {m : Call α} (h : Keeps FsFrame m) :
    Keeps StaysAtRoot m := keeps_at_root_of_frame fun s _ =>
  wp_mono (h s) fun _ _ => FsFrame.handle

theorem dir_close_tasks {d : Ptr} :
    wp any (dirClose d) s fun _ last => last.tasks = s.tasks ∧ last.cur = s.cur := by
  refine wp_mono dir_close_frame ?_
  rintro _ last ⟨-, hlast⟩
  rw [hlast]
  exact ⟨rfl, rfl⟩

theorem dir_close_at_root (d : Ptr) : Keeps StaysAtRoot (dirClose d) := by
  refine keeps_at_root fun s hs => ?_
  obtain ⟨ext, hrefs⟩ := hs.refs
  refine wp_mono (wp_and (dir_close_refs hrefs) dir_close_tasks) ?_
  intro _ last ⟨⟨hlast, _⟩, htasks, hcur⟩
  exact hs.congr ⟨ext, hlast⟩ htasks hcur

theorem sys_opendir_tasks {name : CStr} (hc : CacheOk s) : wp any (sysOpendir name) s fun _ last =>
      last.tasks = s.tasks ∧ last.cur = s.cur := by
  simp only [sysOpendir, wp_bind, wp_assert, and_any, implies_true, and_true, wp_ite, wp_pure]
  refine fun _ => ⟨trivial, fun _ => ?_⟩
  refine wp_mono (search_file_held hc) ?_
  rintro r cur ⟨dir, hheld⟩
  have hcur : cur.tasks = s.tasks ∧ cur.cur = s.cur := by
    rw [hheld.frame]
    exact ⟨rfl, rfl⟩
  refine ⟨fun _ => ?_, fun _ => ?_⟩
  · refine wp_mono (dir_open_spec (.inl fun _ => trivial)) fun d next hopen => ?_
    have hnext : next.tasks = s.tasks ∧ next.cur = s.cur := by
      rw [(DirHeld.opened hopen).frame]
      exact hcur
    rw [← hnext.1, ← hnext.2]
    exact dir_close_tasks
  · rw [← hcur.1, ← hcur.2]
    exact dir_close_tasks

theorem sys_opendir_at_root (name : CStr) : Keeps StaysAtRoot (sysOpendir name) := by
  refine keeps_at_root fun s hs => ?_
  obtain ⟨ext, hrefs⟩ := hs.refs
  refine wp_mono (wp_and (sys_opendir_refs hrefs) (sys_opendir_tasks hs.cache_ok)) ?_
  intro _ last ⟨⟨hlast, _⟩, htasks, hcur⟩
  exact hs.congr ⟨ext, hlast⟩ htasks hcur

theorem store_dir_pos_at_root (d : Ptr) (pos : UInt32) : Keeps StaysAtRoot (storeDirPos d pos) := by
  refine keeps_at_root fun s hs => ?_
  simp only [storeDirPos, wp_bind, wp_deref_dir, and_any]
  intro e _
  obtain ⟨ext, hrefs⟩ := hs.refs
  refine hs.congr ⟨ext, ?_⟩ rfl rfl
  -- the handles keep their inodes
  have hhandles : ∀ entry : Ptr × Dir, (fun entry : Ptr × Dir => (entry.1, entry.2.inode))
      (if entry.1 = d then (entry.1, { entry.2 with dirPos := pos }) else entry) =
      (entry.1, entry.2.inode) := by
    intro entry
    split <;> rfl
  simp only [RefsOk, handleRefs, List.map_map, Function.comp_def, hhandles]
  exact CountedBy.congr hrefs le_rfl rfl fun _ => rfl

theorem read_slots_keeps (b : Bytes) (dirPos size : UInt32) (count : Nat) : ∀ idx curPos,
    Keeps StaysAtRoot (readSlots b dirPos size count idx curPos) := by
  induction count with
  | zero => exact fun _ _ => .pure _
  | succ count ih =>
    exact fun _ _ => .ite (.ite (ih _ _) (.bind (.guard _ _) fun _ => .pure _)) (ih _ _)

theorem read_blocks_at_root (d : Ptr) (allBlocks : Nat → UInt32) (count : Nat) :
    ∀ blockIdx curPos, Keeps StaysAtRoot (readBlocks d allBlocks count blockIdx curPos) := by
  induction count with
  | zero => exact fun _ _ => .pure _
  | succ count ih =>
    intro blockIdx curPos
    refine .bind (keeps_at_root_of_fs (keeps_deref_dir d)) fun dir => ?_
    refine .bind (keeps_at_root_of_fs (keeps_deref_inode _)) fun inode => ?_
    refine .ite (.pure _) (.ite (ih _ _) (.bind .state fun s => ?_))
    refine .bind (keeps_at_root_of_fs (keeps_ide_read _ _)) fun b => ?_
    refine .bind (read_slots_keeps _ _ _ _ _ _) fun r => ?_
    obtain ⟨found, curPos'⟩ := r
    cases found with
    | none => exact ih _ _
    | some idx => exact .bind (store_dir_pos_at_root _ _) fun _ => .pure _

theorem dir_read_at_root (d : Ptr) : Keeps StaysAtRoot (dirRead d) :=
  .bind (keeps_at_root_of_fs (keeps_dir_inode d)) fun _ =>
    .bind (keeps_at_root_of_fs (keeps_all_blocks_of _)) fun _ => read_blocks_at_root _ _ _ _ _

theorem sys_stat_at_root (path : CStr) : Keeps StaysAtRoot (sysStat path) :=
  keeps_at_root_of_frame fun _ => sys_stat_frame

theorem getcwd_at_root : Keeps StaysAtRoot getcwd :=
  keeps_at_root_of_frame fun _ => sys_getcwd_frame

theorem make_clear_abs_path_at_root (path : CStr) : Keeps StaysAtRoot (makeClearAbsPath path) := by
  have hstart : Keeps StaysAtRoot (pathStart path) := by
    refine .ite (.pure _) (.bind getcwd_at_root fun cwd => ?_)
    cases cwd <;> exact .pure _
  refine .bind hstart fun start => .bind (.guard _ _) fun _ => keeps_at_root fun s hs => ?_
  exact wp_mono (wash_path_spec (.inl fun _ => trivial)) fun _ _ h => h.2 ▸ hs

theorem list_entries_at_root (d : Ptr) (subPathname : CStr) (longInfo : Bool) (fuel : Nat) :
    Keeps StaysAtRoot (listEntries d subPathname longInfo fuel) := by
  induction fuel with
  | zero => exact .halt _
  | succ fuel ih =>
    refine .bind (dir_read_at_root d) fun r => ?_
    cases r with
    | none => exact .pure _
    | some entry =>
      refine .ite (.bind (.guard _ _) fun _ => .bind (sys_stat_at_root _) fun r => ?_) ih
      cases r with
      | none => exact .pure _
      | some _ => exact ih

theorem list_dir_at_root (path : CStr) (longInfo : Bool) :
    Keeps StaysAtRoot (listDir path longInfo) :=
  .bind (sys_opendir_at_root path) fun _ =>
    .bind (keeps_at_root_of_fs (keeps_non_null _)) fun d =>
      .bind (store_dir_pos_at_root d 0) fun _ => .bind .state fun _ =>
        .bind (list_entries_at_root _ _ _ _) fun _ =>
          .when (.bind (.bind (dir_close_at_root d) fun _ => .pure _) fun _ => .pure _)

theorem buildin_ls_at_root (args : List CStr) : Keeps StaysAtRoot (buildinLs args) := by
  unfold buildinLs
  cases lsArgs args false none with
  | none => exact .pure _
  | some parsedArgs =>
    obtain ⟨longInfo, arg⟩ := parsedArgs
    have hpath : Keeps StaysAtRoot (lsPath arg) := by
      cases arg with
      | none => exact getcwd_at_root
      | some path => exact .bind (make_clear_abs_path_at_root path) fun _ => .pure _
    refine .bind hpath fun pathname => ?_
    cases pathname with
    | none => exact .pure _
    | some pathname =>
      refine .bind (sys_stat_at_root pathname) fun r => ?_
      cases r with
      | none => exact .pure _
      | some fileStat => exact .when (list_dir_at_root _ _)

theorem path_command_at_root {call : CStr → Call Int}
    (hcall : ∀ path, Keeps StaysAtRoot (call path)) (args : List CStr) :
    Keeps StaysAtRoot (pathCommand call args) := by
  unfold pathCommand
  split
  · exact .bind (make_clear_abs_path_at_root _) fun _ =>
      .ite (.pure _) (.bind (hcall _) fun _ => .pure _)
  · exact .pure _

/-- Every command other than `cd` leaves the process in the root directory. -/
theorem run_buildin_at_root (hc : c.name ≠ .cd) : Keeps StaysAtRoot (runBuildin c) := by
  obtain ⟨name, args⟩ := c
  cases name with
  | cd => exact absurd rfl hc
  | ls => exact .bind (buildin_ls_at_root args) fun _ => .pure _
  | pwd => exact .bind (.when (.bind getcwd_at_root fun _ => .pure _)) fun _ => .pure _
  | mkdir =>
    refine .bind (path_command_at_root (fun _ => ?_) args) fun _ => .pure _
    exact keeps_at_root_of_frame fun _ => sys_mkdir_frame
  | rmdir =>
    refine .bind (path_command_at_root (fun _ => ?_) args) fun _ => .pure _
    exact keeps_at_root_of_frame fun _ => sys_rmdir_frame
  | rm =>
    refine .bind (path_command_at_root (fun _ => ?_) args) fun _ => .pure _
    exact keeps_at_root_of_frame fun _ => sys_unlink_frame

/-! ## Changing the directory -/

/-- In the root directory `getcwd` answers `/` if it is given its buffer. -/
theorem getcwd_spec (hs : AtRoot s) : wp never getcwd s fun r last =>
      r = (if s.grant s.heap.requests 512 then some [slash] else none) ∧ SameButHeap s last := by
  obtain ⟨task, htask, hcwd⟩ := hs.task
  unfold getcwd sysGetcwd
  rw [wp_bind, wp_sys_malloc]
  refine ⟨fun hgrant => ?_, fun hgrant => ?_⟩
  · rw [wp_bind, wp_running_thread]
    refine ⟨fun task' htask' => ?_, fun hnone => ?_⟩
    · obtain rfl : task = task' := Option.some.inj (htask.symm.trans htask')
      rw [wp_bind, wp_assert]
      refine ⟨fun _ => ?_, fun hlarge => by simp [hcwd] at hlarge⟩
      rw [if_pos hcwd]
      exact ⟨by simp [hgrant], _, Nat.le_succ _, rfl⟩
    · exact absurd (htask.symm.trans hnone) (by simp)
  · exact ⟨by simp [hgrant], _, Nat.le_succ _, rfl⟩

/-- Without a cwd or from the root, a path is cleaned as it stands. -/
theorem make_clear_abs_path_spec (hs : AtRoot s) (path : CStr) :
    wp any (makeClearAbsPath path) s fun r last =>
      r = cleaned path ∧ SameButHeap s last := by
  have hwash : ∀ {start : CStr} {mid : Kernel}, SameButHeap s mid →
      (start = [] ∨ start = [slash]) →
      wp any (do access ((start ++ path).length < maxPathLen); washPath (start ++ path))
        mid fun r last => r = cleaned path ∧ SameButHeap s last := by
    intro start mid hmid hstart
    rw [wp_bind, wp_access]
    refine ⟨fun _ => wp_mono (wash_path_spec (.inl fun _ => trivial)) ?_, fun _ => trivial⟩
    rintro r last ⟨rfl, rfl⟩
    refine ⟨?_, hmid⟩
    rcases hstart with rfl | rfl
    · rfl
    · simp only [cleaned, cleanNames, List.singleton_append, components_slash]
  unfold makeClearAbsPath pathStart
  rw [wp_bind, wp_ite]
  refine ⟨fun _ => hwash (SameButHeap.refl s) (.inl rfl), fun _ => ?_⟩
  refine wp_seq (wp_of_never (getcwd_spec hs)) ?_
  rintro r mid ⟨rfl, hmid⟩
  split
  · exact hwash hmid (.inl rfl)
  · rename_i cwd hcwd
    obtain rfl : cwd = [slash] := by
      split at hcwd <;> simp_all
    exact hwash hmid (.inr rfl)

theorem lookup_from_same_but_heap (h : SameButHeap s last) (names : List CStr) :
    ∀ searched dir parentNo lastNo, lookupFrom last names searched dir parentNo lastNo =
      lookupFrom s names searched dir parentNo lastNo := by
  obtain ⟨heap, -, rfl⟩ := h
  have hversion : ∀ dir, dirVersion { s with heap := heap } dir = dirVersion s dir := by
    intro dir
    cases dir <;> rfl
  have hentry : ∀ inode name, lookupEntry { s with heap := heap } inode name =
      lookupEntry s inode name := fun _ _ => rfl
  induction names with
  | nil => exact fun _ _ _ _ => rfl
  | cons name names ih =>
    intro searched dir parentNo lastNo
    simp only [lookupFrom, hversion, hentry, ih]

theorem names_dir_same_but_heap (h : SameButHeap s last) (path : CStr) :
    NamesDir last (cleaned path) ↔ NamesDir s (cleaned path) := by
  have hlookup : lookup last (cleaned path) = lookup s (cleaned path) := by
    unfold lookup
    rcases cleaned_cases path with hroot | hne
    · simp [hroot, isRootPath]
    · -- the number from an uninitialised local is the result only for a path of slashes
      rw [lookup_from_same_but_heap h]
      cases hnames : components (cleaned path) with
      | nil => exact absurd hnames hne
      | cons name names => rfl
  simp only [NamesDir, hlookup]

/-- A `cd` with at most one argument that names a directory. -/
def CdHits (s : Kernel) (c : Cmd) : Prop :=
  c.name = .cd ∧ c.args.length ≤ 1 ∧ NamesDir s (cleaned (c.args.headD []))

instance (s : Kernel) (c : Cmd) : Decidable (CdHits s c) := inferInstanceAs (Decidable (_ ∧ _ ∧ _))

/-- A `cd` fails and leaves the process in the root directory, or it hits. -/
theorem buildin_cd_spec (hs : AtRoot s) (args : List CStr) : wp any (buildinCd args) s fun r last =>
      r = none ∧ AtRoot last ∧ (HeapOk s → ¬CdHits s ⟨.cd, args⟩) ∨
        r.isSome ∧ CdHits s ⟨.cd, args⟩ := by
  unfold buildinCd
  rw [wp_ite]
  refine ⟨fun hmany => .inl ⟨rfl, hs, fun _ hhit => absurd hhit.2.1 (Nat.not_le.2 hmany)⟩,
    fun hfew => ?_⟩
  -- `sys_chdir` of the cleaned path, from a state in which only the heap has changed
  have hchdir : ∀ {mid : Kernel}, SameButHeap s mid →
      wp any (do
        let r ← sysChdir (cleaned (args.headD []))
        pure (if r = -1 then none else some (cleaned (args.headD [])))) mid fun r last =>
        r = none ∧ AtRoot last ∧ (HeapOk s → ¬CdHits s ⟨.cd, args⟩) ∨
          r.isSome ∧ CdHits s ⟨.cd, args⟩ := by
    intro mid hmid
    have hat := hs.of_handle_frame hmid.handle
    have hheap : HeapOk s → HeapOk mid := by
      obtain ⟨heap, -, rfl⟩ := hmid
      exact id
    refine wp_seq (sys_chdir_spec hat.cache_ok (search_file_spec (G := fun _ => True)
      hat.cache_ok (.inl fun _ => trivial)) (.inl fun _ => trivial)) ?_
    rintro r last (⟨rfl, hlast, hmiss⟩ | ⟨rfl, hnames, -⟩)
    · rw [names_dir_same_but_heap hmid] at hmiss
      exact .inl ⟨rfl, hat.of_handle_frame hlast, fun h hhit => hmiss (hheap h) hhit.2.2⟩
    · rw [names_dir_same_but_heap hmid] at hnames
      exact .inr ⟨rfl, rfl, Nat.le_of_not_lt hfew, hnames⟩
  cases args with
  | nil => exact hchdir (SameButHeap.refl s)
  | cons path args =>
    refine wp_seq (make_clear_abs_path_spec hs path) ?_
    rintro _ mid ⟨rfl, hmid⟩
    exact hchdir hmid

/-- A command returns a path if and only if it is a `cd` that hits. -/
theorem run_buildin_spec (hs : AtRoot s) (c : Cmd) : wp any (runBuildin c) s fun r last =>
      r = none ∧ AtRoot last ∧ (HeapOk s → ¬CdHits s c) ∨ r.isSome ∧ CdHits s c := by
  obtain ⟨name, args⟩ := c
  by_cases hcd : name = .cd
  · subst hcd
    exact buildin_cd_spec hs args
  · have hnone : wp any (runBuildin ⟨name, args⟩) s fun r _ => r = none := by
      cases name with
      | cd => exact absurd rfl hcd
      | ls | pwd | mkdir | rmdir | rm =>
        exact wp_bind.2 (wp_any_of_forall fun _ _ => rfl)
    refine wp_mono (wp_and hnone (run_buildin_at_root hcd s)) ?_
    intro r last ⟨hr, hlast⟩
    exact .inl ⟨hr, hlast hs, fun _ hhit => hcd hhit.1⟩

/-! ## Coherence -/

/-- The shell starts in the root directory, with `/` in its prompt. -/
structure Shell.Started (sh : Shell) : Prop where
  atRoot : AtRoot sh.kernel
  prompt : sh.cwdCache = [slash]

/-- The prompt shows what `getcwd` would return. -/
def Shell.Coherent (sh : Shell) : Prop :=
  ∃ last, getcwd sh.kernel = .done (some sh.cwdCache) last

/-- If a command returns a path for the prompt, storing it writes only inside `cwd_cache`. -/
def Shell.UpdatesInside (sh : Shell) (c : Cmd) : Prop :=
  ∀ path mid, runBuildin c sh.kernel = .done (some path) mid →
    ∃ last, storeCwdCache path { sh with kernel := mid } = .done () last

/-- Every command keeps the shell started. -/
theorem Shell.Started.exec (h : sh.Started) (c : Cmd) :
    wp any (execCmd c) sh fun _ last => last.Started := by
  unfold execCmd
  rw [wp_bind, wp_zoom]
  refine wp_mono (run_buildin_spec h.atRoot c) ?_
  rintro r mid (⟨rfl, hmid, -⟩ | ⟨hsome, -⟩)
  · exact ⟨hmid, h.prompt⟩
  · obtain ⟨path, rfl⟩ := Option.isSome_iff_exists.1 hsome
    exact trivial

theorem Shell.Started.coherent_iff (h : sh.Started) :
    sh.Coherent ↔ sh.kernel.grant sh.kernel.heap.requests 512 = true := by
  obtain ⟨r, last, hdone, hr, -⟩ := wp_never_iff.1 (getcwd_spec h.atRoot)
  refine ⟨?_, fun hgrant => ⟨last, ?_⟩⟩
  · intro ⟨last', hdone'⟩
    by_contra hgrant
    rw [hdone, hr, if_neg hgrant] at hdone'
    cases hdone'
  · rw [hdone, hr, if_pos hgrant, h.prompt]

theorem Shell.Started.updates_inside (h : sh.Started) (hmiss : ¬CdHits sh.kernel c) :
    sh.UpdatesInside c := by
  intro path mid hdone
  rcases wp_any_iff.1 (run_buildin_spec h.atRoot c) _ _ hdone with ⟨hnone, -⟩ | ⟨-, hhit⟩
  · cases hnone
  · exact absurd hhit hmiss

theorem Shell.Started.not_updates_inside (h : sh.Started) {r : Option CStr} {mid : Kernel}
    (hheap : HeapOk sh.kernel) (hdone : runBuildin c sh.kernel = .done r mid)
    (hhit : CdHits sh.kernel c) : ¬sh.UpdatesInside c := by
  rcases wp_any_iff.1 (run_buildin_spec h.atRoot c) _ _ hdone with ⟨-, -, hmiss⟩ | ⟨hsome, -⟩
  · exact absurd hhit (hmiss hheap)
  · obtain ⟨path, rfl⟩ := Option.isSome_iff_exists.1 hsome
    intro hinside
    obtain ⟨last, hlast⟩ := hinside path mid hdone
    cases hlast

/-- As long as no `cd` names a directory, the prompt agrees with `getcwd` whenever `getcwd` is given
its buffer, and the next command writes outside `cwd_cache` if and only if it is such a `cd`. -/
theorem cwd_cache_coherent {sh last : Shell} (hstart : sh.Started)
    (hrun : myShell.Run (fun sh c => ¬CdHits sh.kernel c) sh last) :
    (last.Coherent ↔ last.kernel.grant last.kernel.heap.requests 512 = true) ∧
      (∀ c, ¬CdHits last.kernel c → last.UpdatesInside c) ∧
      (HeapOk last.kernel → ∀ c r mid, runBuildin c last.kernel = .done r mid →
        (last.UpdatesInside c ↔ ¬CdHits last.kernel c)) := by
  have hlast : last.Started :=
    System.Run.invariant (fun _ c h _ _ => h.exec c) hrun hstart
  refine ⟨hlast.coherent_iff, fun _ => hlast.updates_inside, fun hheap c r mid hdone => ?_⟩
  exact ⟨fun hinside hhit => hlast.not_updates_inside hheap hdone hhit hinside,
    hlast.updates_inside⟩

/-- The shell on the kernel that has just mounted its root directory. -/
def Shell.booted : Shell := ⟨Kernel.booted, [slash]⟩

theorem booted_started : Shell.booted.Started :=
  ⟨⟨⟨_, booted_handles.refs⟩, _, rfl, rfl⟩, rfl⟩

/-- `mkdir a`, `cd b`, `ls -l` and `pwd`: the `cd` fails. -/
def firstCmds : List Cmd :=
  [⟨.mkdir, [[97]]⟩, ⟨.cd, [[98]]⟩, ⟨.ls, [[45, 108]]⟩, ⟨.pwd, []⟩]

instance (sh : Shell) (c : Cmd) : Decidable (myShell.Enabled sh c) := inferInstanceAs
    (Decidable True)

/-- After them the prompt is right, and `cd b` stays inside `cwd_cache`; `cd a` names a
directory. -/
theorem cwd_cache_coherent_first_cmds : ∃ last,
    myShell.Run (fun sh c => ¬CdHits sh.kernel c) Shell.booted last ∧ last.Coherent ∧
      last.UpdatesInside ⟨.cd, [[98]]⟩ ∧ CdHits last.kernel ⟨.cd, [[97]]⟩ := by
  obtain ⟨last, hrun, hgrant, hmiss, hhit⟩ := myShell.exists_run_of_follow
    (fun sh c => ¬CdHits sh.kernel c) firstCmds Shell.booted
    (fun last => last.kernel.grant last.kernel.heap.requests 512 = true ∧
      ¬CdHits last.kernel ⟨.cd, [[98]]⟩ ∧ CdHits last.kernel ⟨.cd, [[97]]⟩) (by decide +kernel)
  obtain ⟨hcoherent, hinside, -⟩ := cwd_cache_coherent booted_started hrun
  exact ⟨last, hrun, hcoherent.2 hgrant, hinside _ hmiss, hhit⟩

/-- The first `cd` writes outside `cwd_cache`. -/
theorem cd_clears_past_cwd_cache :
    Shell.booted.Started ∧ ¬Shell.booted.UpdatesInside ⟨.cd, []⟩ := by
  refine ⟨booted_started, fun hinside => ?_⟩
  have hdone : ∃ mid, runBuildin ⟨.cd, []⟩ Shell.booted.kernel = .done (some [slash]) mid :=
    ⟨_, rfl⟩
  obtain ⟨mid, hdone⟩ := hdone
  obtain ⟨last, hlast⟩ := hinside _ mid hdone
  cases hlast

end LosKernel
