import LosKernel.Fs.FormatLayout
import LosKernel.Fs.RefCounts
import LosKernel.Kernel.Syscall

/-!
# Exact reference counts along runs

`i_open_cnts` of every cached inode is the number of its handles. The system calls keep it so, but
for `sys_open`, which does not close the directory of the search when it opens an existing file.
-/

namespace LosKernel

open Prog
open Kernel (booted)

variable {s last : Kernel} {handles : List Ptr}

/-- The number of handles on the inode at `p`: slots of `file_table`, the directory handles
`handles` and `root_dir`. -/
def openHandles (s : Kernel) (handles : List Ptr) (p : Ptr) : Nat :=
  slotCount maxFileOpen (fun idx => (s.fileTable idx).fdInode) p +
    (rootDir :: handles).countP fun d => (s.dirs.lookup d).map Dir.inode = some p

/-- The counts of the cached inodes are exact, and an inode is cached as long as it has a handle. -/
structure RefsExact (s : Kernel) (handles : List Ptr) : Prop where
  counted : ∀ p ∈ s.openInodes, ∃ inode, s.inodes p = some inode ∧
    inode.iOpenCnts = openHandles s handles p
  cached : ∀ p, p ∈ s.openInodes ↔ 0 < openHandles s handles p

/-- The invariant of the runs: the counts are the references from the tables, and the `Dir` objects
are `root_dir` and the handles of the callers. -/
structure HandlesOk (s : Kernel) (handles : List Ptr) : Prop where
  refs : RefsOk (fun _ => 0) s
  keys : (s.dirs.map Prod.fst).Perm (rootDir :: handles)
  nodup : (rootDir :: handles).Nodup
  old : ∀ d ∈ handles, d ≤ s.heap.requests

theorem HandlesOk.refs_exact (h : HandlesOk s handles) :
    RefsExact s handles := by
  have hcount : ∀ p, handleRefs s p = openHandles s handles p := by
    intro p
    have hkeys : (s.dirs.map fun e => (e.1, e.2.inode)).map Prod.fst = s.dirs.map Prod.fst := by
      simp [Function.comp_def]
    have hnodup : ((s.dirs.map fun e => (e.1, e.2.inode)).map Prod.fst).Nodup := by
      rw [hkeys]
      exact h.keys.nodup_iff.2 h.nodup
    rw [handleRefs, openHandles, handle_count_keys hnodup, hkeys, h.keys.countP_eq]
    simp only [lookup_map_snd Dir.inode]
  have hrefs : CountedBy (fun p => openHandles s handles p) s := by
    simpa only [RefsOk, hcount, Nat.add_zero] using h.refs
  exact ⟨hrefs.counted, fun p => (hrefs.listed p).symm⟩

/-! ## The calls -/

/-- The system calls on files and directories. A directory handle is closed by a caller that holds
it. -/
def HandleCall (handles : List Ptr) : Request → Prop
  | .closedir (some d) => d ∈ rootDir :: handles
  | .openFile _ _ | .closeFile _ | .opendir _ | .closedir none | .mkdir _ | .rmdir _ | .unlink _
  | .stat _ | .chdir _ | .getcwd _ => True
  | .exit | .fork | .read _ _ | .write _ _ _ | .lseek _ _ _ => False

/-- The directory handles of the callers after a call. -/
def handlesAfter (handles : List Ptr) : Request → Answer → List Ptr
  | .opendir _, .dir (some d) => if d = rootDir then handles else d :: handles
  | .closedir (some d), _ => handles.erase d
  | _, _ => handles

/-- The call does not open an existing file in a directory other than the root. -/
def ClosesParent (s : Kernel) : Request → Prop
  | .openFile path flags => OpensFile s path flags → (lookup s path).parent = none
  | _ => True

/-- A call of some process, with the directory handles of the callers before and after it. The
condition is about the state in which the process runs. -/
def HandleStep (cond : Kernel → Request → Prop) (s last : Kernel × List Ptr) : Prop :=
  ∃ p request answer, HandleCall s.2 request ∧ cond { s.1 with cur := p } request ∧
    Performs s.1 p request answer last.1 ∧ last.2 = handlesAfter s.2 request answer

namespace HandlesOk

variable (h : HandlesOk s handles)

include h

theorem same_dirs (hrefs : RefsOk (fun _ => 0) last) (hreq : s.heap.requests ≤ last.heap.requests)
    (hdirs : last.dirs = s.dirs) : HandlesOk last handles where
  refs := hrefs
  keys := hdirs ▸ h.keys
  nodup := h.nodup
  old := fun d hd => (h.old d hd).trans hreq

theorem of_handle_frame (hframe : HandleFrame s last) : HandlesOk last handles :=
  h.same_dirs (h.refs.of_handle_frame hframe) hframe.requests hframe.dirs_eq

theorem with_tasks (tasks : Ptr → Option Task) :
    HandlesOk { s with tasks := tasks } handles :=
  h.same_dirs (h.refs.with_tasks tasks) (Nat.le_refl _) rfl

theorem opened {path : CStr} {flags : UInt32} {r : Int}
    (hcond : OpensFile s path flags → (lookup s path).parent = none)
    (hopen : Opened s path flags r last) : HandlesOk last handles := by
  have hrefs := h.refs.opened hopen
  cases hopen with
  | failed fileTable hslots hlast hr => exact h.same_dirs hrefs hlast.requests hlast.dirs_eq
  | created base p inode idx tasks hflags hbase hnew hp hcnt hdeny hslot hinstall hlast =>
    subst hlast
    exact h.same_dirs hrefs hbase.requests hbase.dirs_eq
  | reopened d cur hopens hheld hopen =>
    rw [hcond hopens] at hheld
    obtain ⟨hreq, hdirs⟩ := hopen.dirs_eq
    refine h.same_dirs hrefs (hheld.requests_le.trans hreq) (hdirs.trans ?_)
    cases hheld with
    | root hsame => exact hsame.handle.dirs_eq

theorem closed {fd r : Int} (hclose : Closed s fd r last) : HandlesOk last handles := by
  have hrefs := h.refs.closed hclose
  cases hclose with
  | ignored hfd hr hlast => exact hlast ▸ h
  | closed task idx p inode mid htask hfd hslot hidx hfile hinode hclose hr hlast =>
    refine h.same_dirs hrefs ?_ ?_
    · rw [hlast]
      exact Nat.le_of_eq hclose.requests_eq.symm
    · rw [hlast, hclose.frame]

theorem dir_closed {d : Ptr} (hd : d ∈ rootDir :: handles) (hrefs : RefsOk (fun _ => 0) last)
    (hclose : DirClosed s d last) : HandlesOk last (handles.erase d) := by
  have hroot : rootDir ∉ handles := (List.nodup_cons.1 h.nodup).1
  obtain ⟨hreq, -, -, hdirs⟩ := hclose
  by_cases hd0 : d = rootDir
  · subst hd0
    rw [List.erase_of_not_mem hroot]
    exact h.same_dirs hrefs (Nat.le_of_eq hreq.symm) (by simpa using hdirs)
  · have herase : (rootDir :: handles).erase d = rootDir :: handles.erase d := by
      rw [List.erase_cons_tail]
      simpa using Ne.symm hd0
    refine ⟨hrefs, ?_, herase ▸ h.nodup.erase d, fun e he => ?_⟩
    · have hkeys : (s.dirs.eraseP fun entry => entry.1 == d).map Prod.fst =
          (s.dirs.map Prod.fst).erase d := by
        rw [List.erase_eq_eraseP', List.eraseP_map]
        rfl
      rw [hdirs, if_neg hd0, hkeys, ← herase]
      exact h.keys.erase d
    · rw [hreq]
      exact h.old e (List.mem_of_mem_erase he)

theorem dir_answered {r : Option Ptr} {name : CStr} (hrefs : RefsOk (fun _ => 0) last)
    (hreq : s.heap.requests ≤ last.heap.requests) (hanswer : DirAnswered s r last) :
    HandlesOk last (handlesAfter handles (.opendir name) (.dir r)) := by
  cases hanswer with
  | same hr hdirs =>
    rcases hr with rfl | rfl
    · exact h.same_dirs hrefs hreq hdirs
    · exact h.same_dirs hrefs hreq hdirs
  | added d p hr hnew hd hdirs =>
    subst hr
    have hroot : d ≠ rootDir := Nat.ne_of_gt (Nat.lt_of_le_of_lt (Nat.zero_le _) hnew)
    have hnot : d ∉ handles := fun hmem => Nat.not_lt.2 (h.old d hmem) hnew
    simp only [handlesAfter, if_neg hroot]
    refine ⟨hrefs, ?_, ?_, ?_⟩
    · rw [hdirs]
      exact (h.keys.cons d).trans (List.Perm.swap _ _ _)
    · have := h.nodup
      simp only [List.nodup_cons, List.mem_cons, not_or] at this ⊢
      exact ⟨⟨hroot.symm, this.1⟩, hnot, this.2⟩
    · intro e he
      rcases List.mem_cons.1 he with rfl | he
      · exact hd
      · exact (h.old e he).trans hreq

/-- A call keeps the invariant. -/
theorem step {p : Ptr} {request : Request} {answer : Answer} (hcall : HandleCall handles request)
    (hcond : ClosesParent { s with cur := p } request)
    (hperforms : Performs s p request answer last) :
    HandlesOk last (handlesAfter handles request answer) := by
  have h' : HandlesOk { s with cur := p } handles := h.same_dirs
    (CountedBy.congr h.refs le_rfl rfl fun _ => rfl) le_rfl rfl
  have hc := h'.refs.cache_ok
  have hframe : ∀ {α : Type} {m : Call α} {f : α → Answer},
      wp any m { s with cur := p } (fun _ last => HandleFrame { s with cur := p } last) →
      wp any (do return f (← m)) { s with cur := p } fun _ last =>
        HandlesOk last handles := by
    intro α m f hm
    exact wp_seq hm fun _ last hlast => h'.of_handle_frame hlast
  suffices hwp : wp any (dispatch request) { s with cur := p } fun answer last =>
      HandlesOk last (handlesAfter handles request answer) from hperforms.of_wp hwp
  cases request with
  | openFile path flags =>
    exact wp_seq (sys_open_spec hc) fun r last hopen => h'.opened hcond hopen
  | closeFile fd =>
    exact wp_seq sys_close_spec fun r last hclose => h'.closed hclose
  | opendir name =>
    refine wp_seq (sys_opendir_refs h'.refs) ?_
    intro r last ⟨hrefs, hreq, hanswer⟩
    exact h'.dir_answered hrefs hreq hanswer
  | closedir dir =>
    rw [dispatch, wp_bind]
    cases dir with
    | none => exact h'
    | some d =>
      refine wp_seq (dir_close_refs h'.refs) ?_
      intro _ last ⟨hrefs, hclose⟩
      exact h'.dir_closed hcall hrefs hclose
  | chdir path =>
    refine wp_seq (sys_chdir_frame hc) ?_
    rintro r last (hlast | ⟨task, n, -, hlast⟩)
    · exact h'.of_handle_frame hlast
    · exact (h'.with_tasks _).of_handle_frame hlast
  | mkdir path => exact hframe (sys_mkdir_frame hc)
  | rmdir path => exact hframe (sys_rmdir_frame hc)
  | unlink path => exact hframe (sys_unlink_frame hc)
  | stat path => exact hframe (sys_stat_frame hc)
  | getcwd size => exact hframe (sys_getcwd_frame hc)
  | exit => exact hcall.elim
  | fork => exact hcall.elim
  | read fd count => exact hcall.elim
  | write fd buf count => exact hcall.elim
  | lseek fd offset whence => exact hcall.elim

end HandlesOk

/-- The invariant holds in every run of calls that close the parent. -/
theorem handles_ok_of_run {x y : Kernel × List Ptr} (h : HandlesOk x.1 x.2)
    (hrun : Relation.ReflTransGen (HandleStep ClosesParent) x y) : HandlesOk y.1 y.2 := by
  induction hrun with
  | refl => exact h
  | tail _ hstep ih =>
    obtain ⟨p, request, answer, hcall, hcond, hperforms, hafter⟩ := hstep
    rw [hafter]
    exact ih.step hcall hcond hperforms

/-- In every state that is reached by calls that do not open an existing file in a directory other
than the root, the counts are exact. -/
theorem refs_exact_of_run {s last : Kernel} {handles handles' : List Ptr} (h : HandlesOk s handles)
    (hrun : Relation.ReflTransGen (HandleStep ClosesParent) (s, handles) (last, handles')) :
    RefsExact last handles' :=
  (handles_ok_of_run h hrun).refs_exact

/-! ## A mounted partition -/

/-- After mounting, `root_dir` is the only handle. -/
theorem mount_root_handles {startLba secCnt : UInt32} (hinodes : ∀ p, s.inodes p = none)
    (hdirs : s.dirs = []) :
    wp any (mountRoot startLba secCnt) s fun _ last => HandlesOk last [] := by
  refine wp_seq (mount_partition_spec (.inl fun _ => trivial)) ?_
  rintro _ s1 ⟨heap, -, rfl⟩
  set s1 : Kernel := { s with
    heap := heap
    part := mountedPartition s.disk startLba secCnt
    openInodes := [] } with hs1
  have hempty : CountedBy (fun _ => 0) s1 :=
    ⟨fun p _ => hinodes p, List.nodup_nil, by simp [hs1], by simp [hs1]⟩
  simp only [openRootDir, wp_bind, wp_state]
  refine wp_mono (inode_open_spec (.inl fun _ => trivial)) fun p mid hopen => ?_
  have hmid : mid.dirs = [] := hopen.dirs_eq.trans hdirs
  refine ⟨?_, by simp [hmid], by simp, by simp⟩
  have hcounts : ∀ q, bump (fun _ => 0) p q = (if q = p then 1 else 0) := fun q => by simp [bump]
  refine ⟨(hempty.opened hopen).fresh, (hempty.opened hopen).nodup, fun q hq => ?_, fun q => ?_⟩
  · simpa [handleRefs, slotCount, handleCount, hmid, hcounts, eq_comm] using
      (hempty.opened hopen).counted q hq
  · simpa [handleRefs, slotCount, handleCount, hmid, hcounts, eq_comm] using
      (hempty.opened hopen).listed q

theorem booted_handles : HandlesOk booted [] := by
  have hspec : wp any (do partitionFormat 63 5000; mountRoot 63 5000 : Call Unit)
      Kernel.start fun _ last => HandlesOk last [] := by
    refine wp_seq (partition_format_spec (.inl fun _ => trivial)) ?_
    rintro _ s ⟨heap, -, rfl⟩
    exact mount_root_handles (fun _ => rfl) rfl
  exact wp_any_iff.1 hspec _ _ booted_run

/-- Opening the root directory under another name gives a second handle on its inode. -/
theorem refs_exact_after_opendir : ∃ last d,
    Performs booted 1 (.opendir [slash, 46]) (.dir (some d)) last ∧ RefsExact last [d] := by
  have hrun : ∃ d last, dispatch (.opendir [slash, 46]) { booted with cur := 1 } =
      .done (.dir (some (d + 1))) last := ⟨_, _, rfl⟩
  obtain ⟨d, last, hrun⟩ := hrun
  have hperforms : Performs booted 1 (.opendir [slash, 46]) (.dir (some (d + 1))) last :=
    ⟨⟨_, rfl, by decide⟩, hrun⟩
  refine ⟨last, d + 1, hperforms, refs_exact_of_run booted_handles (.single ?_)⟩
  exact ⟨1, .opendir [slash, 46], .dir (some (d + 1)), trivial, trivial, hperforms, rfl⟩

/-- Make `/a` and `/a/f`, close `/a/f` and open it again. -/
def reopenCalls : List (Ptr × Request) :=
  [(1, .mkdir [slash, 97]), (1, .openFile [slash, 97, slash, 102] 4), (1, .closeFile 3),
    (1, .openFile [slash, 97, slash, 102] 0)]

/-- The directory `/a` stays in the cache without a handle. -/
theorem refs_not_exact_after_reopen :
    Relation.ReflTransGen (HandleStep fun _ _ => True) (booted, [])
      (Kernel.booted.follow reopenCalls, []) ∧
    ¬RefsExact (Kernel.booted.follow reopenCalls) [] := by
  constructor
  · have hcalls : ∀ call ∈ reopenCalls, HandleCall [] call.2 ∧
        ∀ answer, handlesAfter [] call.2 answer = [] := by
      simp [reopenCalls, HandleCall, handlesAfter]
    have hreturn : Kernel.booted.allReturn reopenCalls = true := by decide +kernel
    have hrun : Relation.ReflTransGen
        (fun s last => HandleStep (fun _ _ => True) (s, []) (last, [])) booted
        (Kernel.booted.follow reopenCalls) :=
      follow_run reopenCalls hreturn fun s last answer call hcall hperforms =>
        ⟨call.1, call.2, answer, (hcalls call hcall).1, trivial, hperforms,
          ((hcalls call hcall).2 answer).symm⟩
    exact hrun.lift (fun s => (s, [])) fun _ _ h => h
  · intro h
    have hbad : ∃ p ∈ (Kernel.booted.follow reopenCalls).openInodes,
        openHandles (Kernel.booted.follow reopenCalls) [] p = 0 := by
      decide +kernel
    obtain ⟨p, hp, hzero⟩ := hbad
    have := (h.cached p).1 hp
    omega

end LosKernel
