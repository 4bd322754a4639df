import LosKernel.Fs.Lookup
import LosKernel.Fs.Frame

/-!
# System calls and the handles

Which system calls leave the handles as they found them. A search opens the directory it ends in,
and the call closes it on its way out. `HandleFrame` relates the states before and after.
-/

namespace LosKernel

open Prog hiding update
open Function (update update_of_ne update_self)

variable {s next cur : Kernel} {d ioBuf parent : Ptr} {path name : CStr} {n : UInt32}
  {ok : Stop → Prop} {dir : Option UInt32} {room : Nat}

/-! ## Opening keeps the cache in order -/

theorem InodeOpened.cache_ok {p : Ptr} (hc : CacheOk s) (h : InodeOpened s n p cur) :
    CacheOk cur := by
  have hcounted : ∀ (inode : INode) q, q ∈ s.openInodes → 1 ≤ inode.iOpenCnts →
      ∃ inode', update s.inodes p (some inode) q = some inode' ∧
        1 ≤ inode'.iOpenCnts := by
    intro inode q hq hcnt
    by_cases hqp : q = p
    · subst hqp
      exact ⟨inode, update_self .., hcnt⟩
    · rw [update_of_ne hqp]
      exact hc.counted q hq
  cases h with
  | hit inode heap hfind hinode hheap hlast =>
    subst hlast
    refine ⟨fun q hq => ?_, fun q hq => hcounted _ q hq (Nat.le_add_left 1 _)⟩
    have hfresh := hc.fresh q (Nat.lt_of_le_of_lt hheap hq)
    have hqp : q ≠ p := by
      rintro rfl
      simp [hfresh] at hinode
    simpa [update_of_ne hqp] using hfresh
  | miss heap hfind hn hnew hheap hlast =>
    subst hlast
    refine ⟨fun q hq => ?_, fun q hq => ?_⟩
    · have hqp : q ≠ p := Nat.ne_of_gt (Nat.lt_of_le_of_lt hheap hq)
      simpa [pushInode, update_of_ne hqp] using
        hc.fresh q ((hnew.trans_le hheap).trans hq)
    · rcases List.mem_cons.1 hq with rfl | hq
      · exact ⟨_, update_self .., Nat.le_refl 1⟩
      · exact hcounted _ q hq le_rfl

theorem DirHeld.cache_ok (hc : CacheOk s) (h : DirHeld s dir d cur) :
    CacheOk cur := by
  cases h with
  | root h => exact hc.same_but_heap h
  | opened h =>
    obtain ⟨p, mid, hopen, -, -, rfl⟩ := h
    exact ⟨(hopen.cache_ok hc).fresh, (hopen.cache_ok hc).counted⟩

/-- Closing a directory asks for no memory and changes the handles only. -/
theorem dir_close_frame : wp any (dirClose d) s fun _ last =>
      last.heap.requests = s.heap.requests ∧ last = { s with
        heap := last.heap
        openInodes := last.openInodes
        inodes := last.inodes
        dirs := last.dirs } := by
  unfold dirClose
  rw [wp_ite]
  refine ⟨fun _ => ⟨rfl, rfl⟩, fun _ => ?_⟩
  simp only [wp_bind, wp_deref_dir, and_any]
  intro e _
  refine wp_mono inode_close_frame ?_
  rintro _ last ⟨hheap, hlast⟩
  refine ⟨hheap, ?_⟩
  rw [hlast]

theorem search_file_held (hc : CacheOk s) :
    wp any (searchFile path) s fun r cur => ∃ dir, DirHeld s dir r.2.parentDir cur := by
  refine wp_mono (search_file_spec (G := fun _ => True) hc (.inl fun _ => trivial)) ?_
  rintro r cur (hfound | ⟨-, hfound⟩)
  · exact ⟨_, hfound.held⟩
  · obtain ⟨found, -, -, hfound⟩ := hfound
    exact ⟨_, hfound.held⟩

/-! ## Calls that close what they opened -/

/-- The handles are those of `s`, and the directory `d` is held besides. -/
def Holding (s : Kernel) (d : Ptr) (next : Kernel) : Prop :=
  ∃ dir cur, DirHeld s dir d cur ∧ HandleFrame cur next

theorem Holding.work {last : Kernel} (h : Holding s d next) (hwork : HandleFrame next last) :
    Holding s d last := by
  obtain ⟨dir, cur, hheld, hcur⟩ := h
  exact ⟨dir, cur, hheld, hcur.trans hwork⟩

theorem Holding.cache_ok (hc : CacheOk s) (h : Holding s d next) : CacheOk next := by
  obtain ⟨dir, cur, hheld, hcur⟩ := h
  exact hcur.cache_ok (hheld.cache_ok hc)

theorem dir_close_holding (hc : CacheOk s) (h : Holding s d next) :
    wp ok (dirClose d) next fun _ last => HandleFrame s last := by
  obtain ⟨dir, cur, hheld, hcur⟩ := h
  exact dir_close_after hc hheld hcur

theorem search_file_holding (hc : CacheOk s) :
    wp any (searchFile path) s fun r cur => Holding s r.2.parentDir cur := by
  refine wp_mono (search_file_held hc) ?_
  intro r cur ⟨dir, hheld⟩
  exact ⟨dir, cur, hheld, HandleFrame.refl cur⟩

theorem close_and_fail_holding (hc : CacheOk s) (h : Holding s d next) :
    wp any (closeAndFail d) next fun r last => r = -1 ∧ HandleFrame s last := by
  exact wp_seq (dir_close_holding hc h) fun _ _ hlast => ⟨rfl, hlast⟩

theorem keeps_file_in_use (n : UInt32) : ∀ count idx, Keeps FsFrame (fileInUse n count idx) := by
  intro count
  induction count with
  | zero => exact fun _ => .pure _
  | succ count ih =>
    intro idx
    refine .bind .state fun s => ?_
    cases (s.fileTable idx).fdInode with
    | none => exact ih _
    | some p => exact .bind (keeps_deref_inode p) fun _ => .ite (.pure _) (ih _)

/-- `sys_unlink` gives the handles back. -/
theorem unlink_found_frame {found : PathSearchRecord} (hc : CacheOk s)
    (h : Holding s found.parentDir cur) :
    wp any (unlinkFound n found) cur fun _ last => HandleFrame s last := by
  have hfail : ∀ {next : Kernel}, Holding s found.parentDir next →
      wp any (closeAndFail found.parentDir) next fun _ last => HandleFrame s last :=
    fun hnext => wp_mono (close_and_fail_holding hc hnext) fun _ _ h => h.2
  refine wp_seq (keeps_file_in_use _ _ _ cur) fun used s1 h1 => ?_
  rw [wp_ite]
  refine ⟨fun _ => hfail (h.work h1.handle), fun _ => ?_⟩
  refine wp_seq (keeps_sys_malloc _ s1) fun r s2 h2 => ?_
  have h02 : FsFrame cur s2 := h1.trans h2
  cases r with
  | none => exact hfail (h.work h02.handle)
  | some ioBuf =>
    simp only [wp_bind]
    refine wp_mono (keeps_delete_dir_entry _ _ s2) fun _ s3 h3 => ?_
    have h03 : FsFrame cur s3 := h02.trans h3
    have hhold := h.work h03.handle
    refine wp_mono (inode_release_frame (hhold.cache_ok hc)) fun _ s4 h4 => ?_
    refine wp_mono (keeps_sys_free _ s4) fun _ s5 h5 => ?_
    exact dir_close_holding hc (hhold.work (h4.trans h5.handle))

theorem sys_unlink_frame (hc : CacheOk s) :
    wp any (sysUnlink path) s fun _ last => HandleFrame s last := by
  simp only [sysUnlink, wp_bind, wp_assert, and_any]
  intro _
  refine wp_mono (search_file_holding hc) fun r cur hcur => ?_
  have hfail := wp_mono (close_and_fail_holding hc hcur) fun _ _ h => h.2
  simp only [wp_ite]
  exact fun _ => ⟨fun _ => hfail, fun _ => ⟨fun _ => hfail, fun _ =>
    unlink_found_frame hc hcur⟩⟩

theorem sys_stat_frame (hc : CacheOk s) :
    wp any (sysStat path) s fun _ last => HandleFrame s last := by
  unfold sysStat
  rw [wp_ite]
  refine ⟨fun _ => ?_, fun _ => ?_⟩
  · exact wp_seq (keeps_dir_inode rootDir s) fun _ _ h => h.handle
  · refine wp_seq (search_file_holding hc) fun r cur hcur => ?_
    simp only [wp_ite, wp_bind]
    refine ⟨fun _ => ?_, fun _ => dir_close_holding hc hcur⟩
    refine wp_mono (inode_open_spec (.inl fun _ => trivial)) fun p next hopen => ?_
    refine wp_mono (keeps_deref_inode p next) fun inode s1 h1 => ?_
    refine wp_mono (inode_close_after (hcur.cache_ok hc) hopen h1.handle) fun _ s2 h2 => ?_
    exact dir_close_holding hc (hcur.work h2)

/-! ## Making a directory -/

theorem keeps_inode_bitmap_alloc : Keeps HandleFrame inodeBitmapAlloc := by
  intro s
  rw [wp_inode_bitmap_alloc]
  exact ⟨fun _ => HandleFrame.refl s, fun i _ => ⟨Nat.le_refl _, rfl, fun _ => rfl⟩⟩

theorem keeps_inode_bitmap_set (n : UInt32) (value : Bool) :
    Keeps HandleFrame (inodeBitmapSet n value) := by
  intro s
  simp only [inodeBitmapSet, wp_bind, wp_access, and_any]
  exact fun _ => ⟨Nat.le_refl _, rfl, fun _ => rfl⟩

theorem mkdir_fail_holding (hc : CacheOk s) (h : Holding s d next) :
    wp any (mkdirFail d ioBuf) next fun _ last => HandleFrame s last := by
  simp only [mkdirFail, wp_bind]
  refine wp_mono (dir_close_holding hc h) fun _ s1 h1 => ?_
  exact wp_mono (keeps_sys_free _ s1) fun _ _ h2 => h1.trans h2.handle

theorem mkdir_enter_holding {inode : INode} (hc : CacheOk s) (h : Holding s d next) :
    wp any (mkdirEnter name n inode d ioBuf) next fun _ last => HandleFrame s last := by
  simp only [mkdirEnter, wp_bind]
  refine wp_mono (keeps_create_dir_entry _ _ _ next) fun e s1 h1 => ?_
  refine wp_mono (keeps_sync_dir_entry _ _ s1) fun ok s2 h2 => ?_
  have hhold := h.work (h1.trans h2).handle
  simp only [wp_ite, wp_bind]
  refine ⟨fun _ => ?_, fun _ => ?_⟩
  · refine wp_mono (keeps_dir_inode d s2) fun inode s3 h3 => ?_
    refine wp_mono (keeps_inode_sync _ _ s3) fun _ s4 h4 => ?_
    refine wp_mono (keeps_inode_sync _ _ s4) fun _ s5 h5 => ?_
    refine wp_mono (keeps_bitmap_sync _ _ s5) fun _ s6 h6 => ?_
    refine wp_mono (keeps_sys_free _ s6) fun _ s7 h7 => ?_
    exact dir_close_holding hc
      (hhold.work ((((h3.trans h4).trans h5).trans h6).trans h7).handle)
  · refine wp_mono (keeps_inode_bitmap_set _ _ s2) fun _ s3 h3 => ?_
    exact mkdir_fail_holding hc (hhold.work h3)

theorem mkdir_at_holding (hc : CacheOk s) (h : Holding s d next) :
    wp any (mkdirAt name d ioBuf) next fun _ last => HandleFrame s last := by
  refine wp_seq (keeps_inode_bitmap_alloc next) fun r s1 h1 => ?_
  cases r with
  | none => exact mkdir_fail_holding hc (h.work h1)
  | some n =>
    refine wp_seq (keeps_block_bitmap_alloc s1) fun r s2 h2 => ?_
    have hhold := h.work (h1.trans h2.handle)
    cases r with
    | none =>
      refine wp_seq (keeps_inode_bitmap_set _ _ s2) fun _ s3 h3 => ?_
      exact mkdir_fail_holding hc (hhold.work h3)
    | some lba =>
      simp only [wp_bind, wp_assert, and_any]
      intro _
      refine wp_mono (keeps_bitmap_sync _ _ s2) fun _ s3 h3 => ?_
      refine wp_mono (keeps_dir_inode d s3) fun inode s4 h4 => ?_
      refine wp_mono (keeps_ide_write _ _ _ s4) fun _ s5 h5 => ?_
      exact mkdir_enter_holding hc (hhold.work ((h3.trans h4).trans h5).handle)

/-- `path_depth_cnt` counts the components, and returns only if they fit in the buffer. -/
theorem depth_loop_spec (fuel : Nat) : ∀ p name,
    ((∀ r, ok r) ∨ (∀ c ∈ parsed p name, c.length ≤ room) ∧ (parsed p name).length < fuel) →
    wp ok (depthLoop room fuel p name) s fun depth last =>
      last = s ∧ depth = (parsed p name).length ∧ ∀ c ∈ parsed p name, c.length ≤ room := by
  induction fuel with
  | zero => exact fun _ _ hok => hok.elim (fun hok => hok _) fun h => absurd h.2 (Nat.not_lt_zero _)
  | succ fuel ih =>
    intro p name hok
    simp only [depthLoop, wp_bind, wp_access, wp_ite, decide_eq_true_eq]
    refine ⟨fun hroom => ⟨fun hname => by simp [parsed, hname], fun hname => ?_⟩, fun hlong => ?_⟩
    · have hparsed : parsed p name = name :: components (p.getD []) := if_neg hname
      rw [hparsed] at hok ⊢
      refine wp_mono (ih _ _ (hok.imp_right fun h => ?_)) ?_
      · rw [parsed_next]
        exact ⟨(List.forall_mem_cons.1 h.1).2, Nat.lt_of_succ_lt_succ h.2⟩
      · rintro depth last ⟨hlast, hdepth, hfits⟩
        rw [parsed_next] at hdepth hfits
        exact ⟨hlast, congrArg (· + 1) hdepth, List.forall_mem_cons.2 ⟨hroom, hfits⟩⟩
    · exact hok.elim (fun hok => hok _) fun h =>
        absurd (parsed_name_short h.1) (of_decide_eq_false hlong)

/-- `path_depth_cnt` counts the components, if they fit the buffer. -/
theorem path_depth_cnt_in_spec
    (hok : (∀ r, ok r) ∨ path.head? = some slash ∧ components path ≠ [] ∧ ∀ c ∈ components path,
      c.length ≤ room) :
    wp ok (pathDepthCntIn room path) s fun depth last => last = s ∧
      depth = (components path).length ∧ components path ≠ [] ∧
      ∀ c ∈ components path, c.length ≤ room := by
  have hparsed := parsed_path_parse path
  have hfirst : (pathParse path).2 ≠ [] ↔ components path ≠ [] := by
    rw [← hparsed]
    by_cases hname : (pathParse path).2 = []
    · simp [parsed]
    · simp [parsed]
  simp only [pathDepthCntIn, wp_bind, wp_access, decide_eq_true_eq, decide_eq_false_iff_not, hfirst]
  refine ⟨fun hne => ?_, fun hnil => hok.elim (fun hok => hok _) fun h => absurd h.2.1 hnil⟩
  refine wp_mono (depth_loop_spec _ _ _ (hok.imp_right fun h => ?_)) ?_
  · rw [hparsed]
    exact ⟨h.2.2, Nat.lt_succ_of_le ((length_le_path_length _).trans
      (path_length_components_abs h.1))⟩
  · rintro depth last ⟨hlast, hdepth, hfits⟩
    rw [hparsed] at hdepth hfits
    exact ⟨hlast, hdepth, hne, hfits⟩

theorem path_depth_cnt_total (hok : (∀ r, ok r) ∨ path.head? = some slash ∧
      components path ≠ [] ∧ ∀ c ∈ components path, c.length < 16) :
    wp ok (pathDepthCnt path) s fun depth last =>
      last = s ∧ depth = (components path).length ∧ components path ≠ [] :=
  wp_mono (path_depth_cnt_in_spec (hok.imp_right fun h =>
    ⟨h.1, h.2.1, fun c hc => Nat.le_of_lt (h.2.2 c hc)⟩)) fun _ _ h => ⟨h.1, h.2.1, h.2.2.1⟩

theorem path_depth_cnt_spec : wp any (pathDepthCnt path) s fun depth last =>
      last = s ∧ depth = (components path).length :=
  wp_mono (path_depth_cnt_total (.inl fun _ => trivial)) fun _ _ h => ⟨h.1, h.2.1⟩

theorem sys_mkdir_frame (hc : CacheOk s) :
    wp any (sysMkdir path) s fun _ last => HandleFrame s last := by
  refine wp_seq (keeps_sys_malloc _ s) fun r s1 h1 => ?_
  cases r with
  | none => exact h1.handle
  | some ioBuf =>
    rw [wp_bind]
    have hc1 := h1.handle.cache_ok hc
    refine wp_mono (search_file_holding hc1) fun r cur hcur => ?_
    have hback : ∀ last, HandleFrame s1 last → HandleFrame s last :=
      fun _ => h1.handle.trans
    have hfail : wp any (mkdirFail r.2.parentDir ioBuf) cur
        fun _ last => HandleFrame s last :=
      wp_mono (mkdir_fail_holding hc1 hcur) fun _ => hback
    simp only [wp_ite, wp_bind]
    refine ⟨fun _ => hfail, fun _ => ?_⟩
    refine wp_mono path_depth_cnt_spec ?_
    rintro depth _ ⟨rfl, -⟩
    refine wp_mono path_depth_cnt_spec ?_
    rintro searched _ ⟨rfl, -⟩
    exact ⟨fun _ => hfail, fun _ => wp_mono (mkdir_at_holding hc1 hcur) fun _ => hback⟩

/-! ## Removing a directory -/

theorem dir_remove_frame {child : Ptr} (hc : CacheOk s) :
    wp any (dirRemove parent child) s fun _ last => HandleFrame s last := by
  refine wp_seq (keeps_dir_inode child s) fun inode s1 h1 => ?_
  simp only [wp_bind, wp_assert, and_any]
  intro _
  refine wp_mono (keeps_sys_malloc _ s1) fun r s2 h2 => ?_
  have h02 : FsFrame s s2 := h1.trans h2
  cases r with
  | none => exact h02.handle
  | some ioBuf =>
    simp only [wp_bind]
    refine wp_mono (keeps_delete_dir_entry _ _ s2) fun _ s3 h3 => ?_
    have h03 := (h02.trans h3).handle
    refine wp_mono (inode_release_frame (h03.cache_ok hc)) fun _ s4 h4 => ?_
    exact wp_mono (keeps_sys_free _ s4) fun _ _ h5 => (h03.trans h4).trans h5.handle

theorem keeps_dir_is_empty (d : Ptr) : Keeps FsFrame (dirIsEmpty d) :=
  .bind (keeps_dir_inode d) fun _ => .bind .state fun _ => .pure _

theorem rmdir_found_frame (hc : CacheOk s) :
    wp any (rmdirFound n parent) s fun _ last => HandleFrame s last := by
  refine wp_seq (dir_open_spec (.inl fun _ => trivial)) fun d cur hopen => ?_
  have hhold : Holding s d cur := ⟨some n, cur, .opened hopen, HandleFrame.refl cur⟩
  refine wp_seq (keeps_dir_is_empty d cur) fun empty s1 h1 => ?_
  have hhold1 := hhold.work h1.handle
  simp only [wp_ite, wp_bind]
  refine ⟨fun _ => ?_, fun _ => dir_close_holding hc hhold1⟩
  refine wp_mono (dir_remove_frame (hhold1.cache_ok hc)) fun _ s2 h2 => ?_
  exact dir_close_holding hc (hhold1.work h2)

theorem sys_rmdir_frame (hc : CacheOk s) :
    wp any (sysRmdir path) s fun _ last => HandleFrame s last := by
  simp only [sysRmdir, wp_bind]
  refine wp_mono (search_file_holding hc) fun r cur hcur => ?_
  have hfail := wp_mono (close_and_fail_holding hc hcur) fun _ _ h => h.2
  simp only [wp_assert, and_any, wp_ite, wp_bind]
  refine fun _ => ⟨fun _ => hfail, fun _ => ⟨fun _ => hfail, fun _ => ?_⟩⟩
  refine wp_mono (rmdir_found_frame (hcur.cache_ok hc)) fun _ s1 h1 => ?_
  exact dir_close_holding hc (hcur.work h1)

/-! ## The working directory -/

theorem get_parent_dir_inode_nr_frame (hc : CacheOk s) :
    wp any (getParentDirInodeNr n) s fun _ last => HandleFrame s last := by
  refine wp_seq (inode_open_spec (.inl fun _ => trivial)) fun p cur hopen => ?_
  simp only [wp_bind, wp_assert, and_any]
  refine wp_mono (keeps_deref_inode p cur) fun inode s1 h1 _ => ?_
  refine wp_mono (inode_close_after hc hopen h1.handle) fun _ s2 h2 => ?_
  exact wp_mono (keeps_ide_read _ _ s2) fun _ _ h3 _ => h2.trans h3.handle

theorem keeps_find_child_blocks (blocks : Nat → UInt32) (n : UInt32) : ∀ count idx,
    Keeps FsFrame (findChildBlocks blocks n count idx) := by
  intro count
  induction count with
  | zero => exact fun _ => .pure _
  | succ count ih =>
    intro idx
    refine .ite (ih _) (.bind (keeps_ide_read _ _) fun b => .bind .state fun s => ?_)
    cases findChild b n (dirEntrysPerSec s.part.sb) 0 with
    | none => exact ih _
    | some name => exact .pure _

theorem get_child_dir_name_frame {m : UInt32} (hc : CacheOk s) :
    wp any (getChildDirName n m) s fun _ last => HandleFrame s last := by
  refine wp_seq (inode_open_spec (.inl fun _ => trivial)) fun p cur hopen => ?_
  simp only [wp_bind]
  refine wp_mono (keeps_deref_inode p cur) fun inode s1 h1 => ?_
  refine wp_mono (keeps_all_blocks_of inode s1) fun blocks s2 h2 => ?_
  refine wp_mono (inode_close_after hc hopen (h1.trans h2).handle) fun _ s3 h3 => ?_
  exact wp_mono (keeps_find_child_blocks _ _ _ _ s3) fun _ _ h4 => h3.trans h4.handle

theorem climb_frame (fuel : Nat) : ∀ {s : Kernel} {n : UInt32} {path : CStr}, CacheOk s →
    wp any (climb fuel n path) s fun _ last => HandleFrame s last := by
  induction fuel with
  | zero => exact fun _ => trivial
  | succ fuel ih =>
    intro s n path hc
    simp only [climb, wp_ite, wp_bind]
    refine ⟨fun _ => HandleFrame.refl s, fun _ => ?_⟩
    refine wp_mono (get_parent_dir_inode_nr_frame hc) fun parent s1 h1 => ?_
    refine wp_mono (get_child_dir_name_frame (h1.cache_ok hc)) fun r s2 h2 => ?_
    have h02 := h1.trans h2
    cases r with
    | none => exact h02
    | some name =>
      simp only [wp_bind, wp_access, and_any]
      exact fun _ => wp_mono (ih (h02.cache_ok hc)) fun _ _ h3 => h02.trans h3

theorem sys_getcwd_frame {size : UInt32} (hc : CacheOk s) :
    wp any (sysGetcwd size) s fun _ last => HandleFrame s last := by
  refine wp_seq (keeps_sys_malloc _ s) fun r s1 h1 => ?_
  cases r with
  | none => exact h1.handle
  | some ioBuf =>
    simp only [wp_bind, wp_running_thread, wp_assert, and_any, wp_ite]
    refine fun task _ _ => ⟨fun _ => h1.handle, fun _ => ?_⟩
    refine wp_mono (climb_frame _ (h1.handle.cache_ok hc)) fun r s2 h2 => ?_
    have h02 := h1.handle.trans h2
    cases r with
    | none =>
      exact wp_seq (keeps_sys_free _ s2) fun _ _ h3 => h02.trans h3.handle
    | some path =>
      simp only [wp_bind, wp_assert, and_any]
      exact fun _ => wp_mono (keeps_sys_free _ s2) fun _ _ h3 => h02.trans h3.handle

theorem CacheOk.with_tables (hc : CacheOk s) (fileTable : Nat → File) (tasks : Ptr → Option Task) :
    CacheOk { s with fileTable := fileTable, tasks := tasks } :=
  ⟨hc.fresh, hc.counted⟩

theorem DirHeld.with_tables (h : DirHeld s dir d cur) (files : (Nat → File) → Nat → File)
    (tasks : (Ptr → Option Task) → Ptr → Option Task) :
    DirHeld { s with fileTable := files s.fileTable, tasks := tasks s.tasks } dir d
      { cur with fileTable := files cur.fileTable, tasks := tasks cur.tasks } := by
  cases h with
  | root h =>
    obtain ⟨heap, hheap, rfl⟩ := h
    exact .root ⟨heap, hheap, rfl⟩
  | opened h =>
    obtain ⟨p, mid, hopen, hnew, hd, rfl⟩ := h
    refine .opened ⟨p, { mid with fileTable := files mid.fileTable, tasks := tasks mid.tasks },
      ?_, hnew, hd, rfl⟩
    cases hopen with
    | hit inode heap hfind hinode hheap hlast =>
      exact .hit inode heap hfind hinode hheap (by rw [hlast])
    | miss heap hfind hn hnew hheap hlast =>
      exact .miss heap hfind hn hnew hheap (by rw [hlast]; rfl)

/-- `sys_chdir` gives the handles back; it changes the working directory of the caller only. -/
theorem sys_chdir_frame (hc : CacheOk s) :
    wp any (sysChdir path) s fun _ last => HandleFrame s last ∨
      ∃ task n, s.tasks s.cur = some task ∧ HandleFrame { s with
        tasks := update s.tasks s.cur (some { task with cwdInodeNr := n }) } last := by
  simp only [sysChdir, wp_bind]
  refine wp_mono (search_file_held hc) ?_
  rintro r cur ⟨dir, hheld⟩
  have hhold : Holding s r.2.parentDir cur := ⟨dir, cur, hheld, HandleFrame.refl cur⟩
  simp only [wp_ite, wp_bind, wp_running_thread, wp_store_task, and_any]
  refine ⟨fun _ task htask => ?_, fun _ =>
    wp_mono (close_and_fail_holding hc hhold) fun _ _ h => .inl h.2⟩
  have hcur : cur.cur = s.cur := by rw [hheld.frame]
  have htasks : cur.tasks = s.tasks := by rw [hheld.frame]
  have hheld' := hheld.with_tables id fun tasks =>
    update tasks cur.cur (some { task with cwdInodeNr := r.1 })
  refine wp_mono (dir_close_after (hc.with_tables _ _) hheld' (HandleFrame.refl _))
    fun _ last hlast => ?_
  rw [hcur, htasks] at htask
  rw [hcur] at hlast
  exact .inr ⟨task, r.1, htask, hlast⟩

end LosKernel
