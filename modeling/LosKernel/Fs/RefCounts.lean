import LosKernel.Lib.RefCount
import LosKernel.Fs.Opening

/-!
# Reference counts

`i_open_cnts` of an open inode is to be the number of its handles: slots of `file_table` and open
`Dir` objects. `CountedBy` says that a function gives the counts in the cache; opening an inode
adds one at its address, closing it takes one away.
-/

namespace LosKernel

open Prog hiding update
open Function (update update_of_ne update_self)

variable {inode : INode} {n : UInt32} {d p : Ptr} {r : Int} {s last cur : Kernel}
  {dir : Option UInt32} {t ext : Ptr → Nat} {idx : Nat} {file : File}

/-! ## Counts in the cache -/

/-- The open inodes have the counts `t`, and an inode is open if and only if its count is not
zero. -/
structure CountedBy (t : Ptr → Nat) (s : Kernel) : Prop where
  fresh : ∀ p, s.heap.requests < p → s.inodes p = none
  nodup : s.openInodes.Nodup
  counted : ∀ p ∈ s.openInodes, ∃ inode, s.inodes p = some inode ∧ inode.iOpenCnts = t p
  listed : ∀ p, 0 < t p ↔ p ∈ s.openInodes

namespace CountedBy

theorem cache_ok (h : CountedBy t s) : CacheOk s where
  fresh := h.fresh
  counted := by
    intro p hp
    obtain ⟨inode, hinode, hcnt⟩ := h.counted p hp
    exact ⟨inode, hinode, hcnt ▸ (h.listed p).2 hp⟩

/-- An address that was not handed out has no references. -/
theorem eq_zero_of_fresh (h : CountedBy t s) (hp : s.heap.requests < p) : t p = 0 := by
  by_contra hne
  obtain ⟨inode, hinode, -⟩ := h.counted p ((h.listed p).1 (Nat.pos_of_ne_zero hne))
  simp [h.fresh p hp] at hinode

/-- Only the heap, the list of open inodes and the counts matter. -/
theorem congr (h : CountedBy t s) (hreq : s.heap.requests ≤ last.heap.requests)
    (hopen : last.openInodes = s.openInodes)
    (htags : ∀ p, (last.inodes p).map INode.iOpenCnts = (s.inodes p).map INode.iOpenCnts) :
    CountedBy t last where
  fresh := by
    intro p hp
    have := htags p
    rw [h.fresh p (Nat.lt_of_le_of_lt hreq hp)] at this
    simpa using this
  nodup := hopen ▸ h.nodup
  counted := by
    intro p hp
    rw [hopen] at hp
    obtain ⟨inode, hinode, hcnt⟩ := h.counted p hp
    have := htags p
    rw [hinode] at this
    cases hlast : last.inodes p with
    | none => simp [hlast] at this
    | some inode' => exact ⟨inode', rfl, by simpa [hlast, hcnt] using this⟩
  listed := fun p => hopen ▸ h.listed p

theorem of_handle_frame (h : CountedBy t s) (hframe : HandleFrame s last) : CountedBy t last := by
  refine h.congr hframe.requests hframe.open_inodes_eq fun p => ?_
  have := congrArg (Option.map fun tag => tag.2.1) (hframe.tags p)
  simpa [Function.comp_def, INode.tag] using this

/-- Raising the count of an open inode adds a reference. -/
theorem incremented {heap : Heap} (h : CountedBy t s) (hmem : p ∈ s.openInodes)
    (hinode : s.inodes p = some inode) (hheap : s.heap.requests ≤ heap.requests) :
    CountedBy (bump t p) { s with
      heap := heap
      inodes := update s.inodes p
        (some { inode with iOpenCnts := inode.iOpenCnts + 1 }) } := by
  refine ⟨fun q hq => ?_, h.nodup, fun q hq => ?_, fun q => ?_⟩
  · have hfresh := h.fresh q (Nat.lt_of_le_of_lt hheap hq)
    have hqp : q ≠ p := by
      rintro rfl
      simp [hfresh] at hinode
    simpa [update_of_ne hqp] using hfresh
  · by_cases hqp : q = p
    · subst hqp
      obtain ⟨inode', hinode', hcnt⟩ := h.counted q hmem
      obtain rfl : inode = inode' := Option.some.inj (hinode.symm.trans hinode')
      exact ⟨_, update_self .., by simp [hcnt]⟩
    · simpa [update_of_ne hqp, bump_of_ne t hqp] using h.counted q hq
  · by_cases hqp : q = p
    · subst hqp
      simp [hmem]
    · rw [bump_of_ne t hqp]
      exact h.listed q

/-- An open adds a reference. -/
theorem opened (h : CountedBy t s) (hopen : InodeOpened s n p last) :
    CountedBy (bump t p) last := by
  cases hopen with
  | hit inode heap hfind hinode hheap hlast =>
    obtain ⟨hmem, -⟩ := find_open_inode_eq_some hfind
    exact hlast ▸ h.incremented hmem hinode hheap
  | miss heap hfind hn hnew hheap hlast =>
    subst hlast
    have hzero := h.eq_zero_of_fresh hnew
    have hnot : p ∉ s.openInodes := fun hp => by simpa [hzero] using (h.listed p).2 hp
    refine ⟨fun q hq => ?_, List.nodup_cons.2 ⟨hnot, h.nodup⟩, fun q hq => ?_, fun q => ?_⟩
    · have hqp : q ≠ p := Nat.ne_of_gt (Nat.lt_of_le_of_lt hheap hq)
      simpa [pushInode, update_of_ne hqp] using h.fresh q ((hnew.trans_le hheap).trans hq)
    · by_cases hqp : q = p
      · subst hqp
        exact ⟨_, update_self .., by simp [hzero]⟩
      · have hq' : q ∈ s.openInodes := by simpa [pushInode, hqp] using hq
        simpa [pushInode, update_of_ne hqp, bump_of_ne t hqp] using h.counted q hq'
    · by_cases hqp : q = p
      · subst hqp
        simp [pushInode]
      · simpa [pushInode, hqp, bump_of_ne t hqp] using h.listed q

/-- A close takes one away. -/
theorem closed (h : CountedBy (bump t p) s) (hclose : InodeClosed s p last) : CountedBy t last := by
  have hmem : p ∈ s.openInodes := (h.listed p).1 (by simp)
  obtain ⟨old, hold, hcnt⟩ := h.counted p hmem
  rw [bump_self] at hcnt
  cases hclose with
  | dropped inode heap hinode hone _ hheap hlast =>
    obtain rfl : old = inode := Option.some.inj (hold.symm.trans hinode)
    have hzero : t p = 0 := by omega
    subst hlast
    refine ⟨fun q hq => ?_, h.nodup.erase p, fun q hq => ?_, fun q => ?_⟩
    · by_cases hqp : q = p
      · simp [dropInode, hqp]
      · simpa [dropInode, update_of_ne hqp] using
          h.fresh q (by simpa [dropInode, hheap] using hq)
    · have hq' := (h.nodup.mem_erase_iff.1 hq)
      simpa [dropInode, update_of_ne hq'.1, bump_of_ne t hq'.1] using
        h.counted q hq'.2
    · by_cases hqp : q = p
      · subst hqp
        simp [dropInode, hzero, h.nodup.mem_erase_iff]
      · rw [← bump_of_ne t hqp, h.listed q]
        simp [dropInode, hqp]
  | kept inode hinode hone hlast =>
    obtain rfl : old = inode := Option.some.inj (hold.symm.trans hinode)
    subst hlast
    refine ⟨fun q hq => ?_, h.nodup, fun q hq => ?_, fun q => ?_⟩
    · have hfresh := h.fresh q hq
      have hqp : q ≠ p := by
        rintro rfl
        simp [hfresh] at hinode
      simpa [update_of_ne hqp] using hfresh
    · by_cases hqp : q = p
      · subst hqp
        exact ⟨_, update_self .., by simp [hcnt]⟩
      · simpa [update_of_ne hqp, bump_of_ne t hqp] using h.counted q hq
    · by_cases hqp : q = p
      · subst hqp
        simp only [hmem, iff_true]
        omega
      · rw [← bump_of_ne t hqp]
        exact h.listed q

end CountedBy

/-! ## References from the tables -/

/-- The number of slots of `file_table` and of `Dir` objects that hold the inode at `p`. -/
def handleRefs (s : Kernel) (p : Ptr) : Nat :=
  slotCount maxFileOpen (fun idx => (s.fileTable idx).fdInode) p +
    handleCount (s.dirs.map fun e => (e.1, e.2.inode)) p

/-- Filling or clearing a slot of the file table, as a change of the slots. -/
theorem slots_update (table : Nat → File) (idx : Nat) (file : File) :
    (fun i => (update table idx file i).fdInode) =
      update (fun i => (table i).fdInode) idx file.fdInode := by
  funext i
  by_cases hi : i = idx
  · subst hi
    simp
  · simp [update_of_ne hi]

theorem handle_refs_fill (hidx : idx < maxFileOpen) (hfree : (s.fileTable idx).fdInode = none)
    (hfile : file.fdInode = some p) :
    handleRefs { s with fileTable := update s.fileTable idx file } =
      bump (handleRefs s) p := by
  funext q
  have := slot_count_update hidx (fun i => (s.fileTable i).fdInode) file.fdInode q
  simp only [hfree, hfile, reduceCtorEq, if_false, Option.some.injEq, @eq_comm _ p q] at this
  simp only [handleRefs, slots_update, hfile, bump]
  omega

theorem handle_refs_free (hidx : idx < maxFileOpen) (hfree : (s.fileTable idx).fdInode = none)
    (hfile : file.fdInode = none) :
    handleRefs { s with fileTable := update s.fileTable idx file } = handleRefs s := by
  funext q
  have := slot_count_update hidx (fun i => (s.fileTable i).fdInode) file.fdInode q
  simp only [hfree, hfile] at this
  simp only [handleRefs, slots_update, hfile]
  omega

theorem handle_refs_clear (hidx : idx < maxFileOpen) (hheld : (s.fileTable idx).fdInode = some p)
    (hfile : file.fdInode = none) :
    handleRefs s =
      bump (handleRefs { s with fileTable := update s.fileTable idx file }) p := by
  funext q
  have := slot_count_update hidx (fun i => (s.fileTable i).fdInode) file.fdInode q
  simp only [hheld, hfile, reduceCtorEq, if_false, Option.some.injEq, @eq_comm _ p q] at this
  simp only [handleRefs, slots_update, hfile, bump]
  omega

theorem handle_refs_cons (pos : UInt32) :
    handleRefs { s with dirs := (d, ⟨p, pos⟩) :: s.dirs } = bump (handleRefs s) p := by
  funext q
  simp only [handleRefs, handleCount, List.map_cons, List.countP_cons, bump, decide_eq_true_eq,
    @eq_comm _ p q]
  omega

theorem handle_refs_erase {e : Dir} (hlookup : s.dirs.lookup d = some e) : handleRefs s =
      bump (handleRefs { s with dirs := s.dirs.eraseP fun entry => entry.1 == d }) e.inode := by
  funext q
  have hmap : (s.dirs.map fun e => (e.1, e.2.inode)).lookup d = some e.inode := by
    rw [lookup_map_snd Dir.inode, hlookup, Option.map_some]
  have := handle_count_erase hmap q
  rw [List.eraseP_map] at this
  simp only [handleRefs, bump]
  simp only [Function.comp_def] at this
  omega

/-! ## Calls keep the counts exact -/

/-- The counts in the cache are the references from the tables, and `ext` more at each address. -/
def RefsOk (ext : Ptr → Nat) (s : Kernel) : Prop :=
  CountedBy (fun p => handleRefs s p + ext p) s

theorem bump_add (t ext : Ptr → Nat) (p : Ptr) :
    (fun q => bump t p q + ext q) = bump (fun q => t q + ext q) p := by
  funext q
  simp only [bump]
  omega

namespace RefsOk

theorem of_handle_frame (h : RefsOk ext s) (hframe : HandleFrame s last) : RefsOk ext last := by
  unfold RefsOk handleRefs
  rw [hframe.file_table_eq, hframe.dirs_eq]
  exact CountedBy.of_handle_frame h hframe

theorem with_tasks (h : RefsOk ext s) (tasks : Ptr → Option Task) :
    RefsOk ext { s with tasks := tasks } := CountedBy.congr h (Nat.le_refl _) rfl fun _ => rfl

theorem held (h : RefsOk ext s) (hheld : DirHeld s dir d cur) :
    RefsOk ext cur := by
  cases hheld with
  | root hsame => exact h.of_handle_frame hsame.handle
  | opened hopened =>
    obtain ⟨p, mid, hopen, -, -, rfl⟩ := hopened
    have hrefs : handleRefs mid = handleRefs s := by
      rw [hopen.frame]
      rfl
    unfold RefsOk
    rw [handle_refs_cons, bump_add, hrefs]
    exact (CountedBy.opened h hopen).congr le_rfl rfl fun _ => rfl

theorem add_file {tasks : Ptr → Option Task} (h : RefsOk ext s) (hnew : s.inodes p = none)
    (hp : p ≤ s.heap.requests) (hcnt : inode.iOpenCnts = 1) (hidx : idx < maxFileOpen)
    (hfree : (s.fileTable idx).fdInode = none) (hfile : file.fdInode = some p) :
    RefsOk ext (withFile s p inode idx file tasks) := by
  have hnot : p ∉ s.openInodes := by
    intro hmem
    obtain ⟨old, hold, -⟩ := h.counted p hmem
    simp [hnew] at hold
  have hzero : handleRefs s p + ext p = 0 := by
    by_contra hne
    exact hnot ((h.listed p).1 (Nat.pos_of_ne_zero hne))
  have hrefs : handleRefs (withFile s p inode idx file tasks) = bump (handleRefs s) p :=
    handle_refs_fill hidx hfree hfile
  unfold RefsOk
  rw [hrefs, bump_add]
  refine ⟨fun q hq => ?_, List.nodup_cons.2 ⟨hnot, h.nodup⟩, fun q hq => ?_, fun q => ?_⟩
  · have hqp : q ≠ p := Nat.ne_of_gt (Nat.lt_of_le_of_lt hp hq)
    simpa [withFile, update_of_ne hqp] using h.fresh q hq
  · by_cases hqp : q = p
    · subst hqp
      exact ⟨inode, update_self .., by simp [hcnt, hzero]⟩
    · have hq' : q ∈ s.openInodes := by simpa [withFile, hqp] using hq
      simpa [withFile, update_of_ne hqp, bump_of_ne _ hqp] using h.counted q hq'
  · by_cases hqp : q = p
    · subst hqp
      simp [withFile]
    · simpa [withFile, hqp, bump_of_ne _ hqp] using h.listed q

theorem take_slot (h : RefsOk ext s) (hopen : InodeOpened s n p cur) (hidx : idx < maxFileOpen)
    (hfree : (s.fileTable idx).fdInode = none) (hfile : file.fdInode = some p) :
    RefsOk ext { cur with fileTable := update cur.fileTable idx file } := by
  have hsame : cur.fileTable = s.fileTable ∧ cur.dirs = s.dirs := by
    rw [hopen.frame]
    exact ⟨rfl, rfl⟩
  have hrefs : handleRefs cur = handleRefs s := by
    funext q
    simp only [handleRefs, hsame]
  unfold RefsOk
  rw [handle_refs_fill hidx (by rwa [hsame.1]) hfile, bump_add, hrefs]
  exact (CountedBy.opened h hopen).congr le_rfl rfl fun _ => rfl

theorem set_write_deny (h : RefsOk ext s) (hinode : s.inodes p = some inode) (deny : Bool) :
    RefsOk ext { s with
      inodes := update s.inodes p (some { inode with writeDeny := deny }) } := by
  refine CountedBy.congr h le_rfl rfl fun q => ?_
  by_cases hq : q = p
  · subst hq
    simp [hinode]
  · simp [update_of_ne hq]

/-- The step of `file_open`. -/
theorem file_opened {flag : UInt32} (h : RefsOk ext s) (hopen : FileOpened s n flag r last) :
    RefsOk ext last := by
  cases hopen with
  | full hr hlast => exact hlast ▸ h
  | denied idx p mid inode hslot hopen hinode hwrite hdeny hr hlast =>
    obtain ⟨-, hidx, hfree⟩ := (find_slot_is_search _).eq_some _ _ hslot
    exact hlast ▸ h.take_slot hopen hidx hfree rfl
  | opened idx p mid inode tasks hslot hopen hinode hdeny hinstall hlast =>
    obtain ⟨-, hidx, hfree⟩ := (find_slot_is_search _).eq_some _ _ hslot
    have htaken : RefsOk ext
        { mid with fileTable := update mid.fileTable idx ⟨0, flag, some p⟩ } :=
      h.take_slot hopen hidx hfree rfl
    exact hlast ▸ (htaken.set_write_deny hinode _).with_tasks tasks

/-- The step of `sys_open`. -/
theorem opened {path : CStr} {flags : UInt32} (h : RefsOk ext s)
    (hopen : Opened s path flags r last) : RefsOk ext last := by
  cases hopen with
  | failed fileTable hslots hlast hr =>
    refine of_handle_frame ?_ hlast
    rcases hslots with rfl | ⟨idx, hslot, rfl⟩
    · exact h
    · obtain ⟨-, hidx, hfree⟩ := (find_slot_is_search _).eq_some _ _ hslot
      unfold RefsOk
      rw [handle_refs_free hidx hfree rfl]
      exact CountedBy.congr h le_rfl rfl fun _ => rfl
  | created base p inode idx tasks hflags hbase hnew hp hcnt hdeny hslot hinstall hlast =>
    obtain ⟨-, hidx, hfree⟩ := (find_slot_is_search _).eq_some _ _ hslot
    rw [← hbase.file_table_eq] at hfree
    subst hlast
    exact (h.of_handle_frame hbase).add_file (hbase.inode_eq_none (h.fresh p hnew)) hp hcnt hidx
      hfree rfl
  | reopened d cur hopens hheld hopen => exact (h.held hheld).file_opened hopen

/-- The step of `sys_close`. -/
theorem closed {fd : Int} (h : RefsOk ext s) (hclose : Closed s fd r last) : RefsOk ext last := by
  cases hclose with
  | ignored hfd hr hlast => exact hlast ▸ h
  | closed task idx p inode mid htask hfd hslot hidx hfile hinode hclose hr hlast =>
    have hsame : mid.dirs = s.dirs := by rw [hclose.frame]
    set files := update s.fileTable idx { s.fileTable idx with fdInode := none }
    have hrefs : handleRefs s = bump (handleRefs { s with fileTable := files }) p :=
      handle_refs_clear hidx hfile rfl
    have hlast' : handleRefs last = handleRefs { s with fileTable := files } := by
      funext q
      simp only [hlast, handleRefs, hsame]
    have hcounts : (fun q => handleRefs s q + ext q) =
        bump (fun q => handleRefs last q + ext q) p := by
      rw [hlast', ← bump_add, ← hrefs]
    have hbump : CountedBy (fun q => handleRefs s q + ext q) _ := h.set_write_deny hinode false
    rw [hcounts] at hbump
    exact (hbump.closed hclose).congr (by rw [hlast]) (by rw [hlast]) fun q => by rw [hlast]

end RefsOk

/-- What closing the directory handle `d` does to the handles. -/
structure DirClosed (s : Kernel) (d : Ptr) (last : Kernel) : Prop where
  requests : last.heap.requests = s.heap.requests
  files : last.fileTable = s.fileTable
  tasks : last.tasks = s.tasks
  dirs : last.dirs = if d = rootDir then s.dirs else s.dirs.eraseP fun entry => entry.1 == d

theorem dir_close_refs (h : RefsOk ext s) :
    wp any (dirClose d) s fun _ last => RefsOk ext last ∧ DirClosed s d last := by
  unfold dirClose
  rw [wp_ite]
  refine ⟨fun hd => ⟨h, rfl, rfl, rfl, by simp [hd]⟩, fun hd => ?_⟩
  simp only [wp_bind, wp_deref_dir, and_any]
  intro e he
  refine wp_mono (wp_and inode_close_spec inode_close_frame) ?_
  rintro _ mid ⟨hclose, hreq, hframe⟩
  have hdirs : mid.dirs = s.dirs := by rw [hframe]
  have hfiles : mid.fileTable = s.fileTable := by rw [hframe]
  have htasks : mid.tasks = s.tasks := by rw [hframe]
  refine ⟨?_, hreq, hfiles, htasks, by simp [hd, hdirs]⟩
  have hcounts : CountedBy (fun q => handleRefs s q + ext q) s := h
  rw [handle_refs_erase he, bump_add] at hcounts
  have hlast : CountedBy _ { mid with
      heap := ⟨mid.heap.requests, mid.heap.live.erase d⟩
      dirs := mid.dirs.eraseP fun entry => entry.1 == d } :=
    (hcounts.closed hclose).congr le_rfl rfl fun _ => rfl
  simpa only [RefsOk, handleRefs, hdirs, hfiles] using hlast

/-- What `sys_opendir` returned, and the handles it left. -/
inductive DirAnswered (s : Kernel) (r : Option Ptr) (last : Kernel) : Prop where
  | same (hr : r = none ∨ r = some rootDir) (hdirs : last.dirs = s.dirs)
  | added (d p : Ptr) (hr : r = some d) (hnew : s.heap.requests < d) (hd : d ≤ last.heap.requests)
      (hdirs : last.dirs = (d, ⟨p, 0⟩) :: s.dirs)

theorem DirHeld.dirs_eq (h : DirHeld s dir d cur) :
    d = rootDir ∧ cur.dirs = s.dirs ∨
      d ≠ rootDir ∧ d ≤ cur.heap.requests ∧ ∃ e, cur.dirs = (d, e) :: s.dirs := by
  cases h with
  | root h =>
    obtain ⟨heap, -, rfl⟩ := h
    exact .inl ⟨rfl, rfl⟩
  | opened h =>
    obtain ⟨p, mid, hopen, hnew, hd, rfl⟩ := h
    have hne : d ≠ rootDir := Nat.ne_of_gt (Nat.lt_of_le_of_lt (Nat.zero_le _) hnew)
    exact .inr ⟨hne, hd, ⟨p, 0⟩, by rw [hopen.dirs_eq]⟩

theorem sys_opendir_refs {name : CStr} (h : RefsOk ext s) :
    wp any (sysOpendir name) s fun r last =>
      RefsOk ext last ∧ s.heap.requests ≤ last.heap.requests ∧ DirAnswered s r last := by
  simp only [sysOpendir, wp_bind, wp_assert, and_any, wp_ite]
  refine fun _ => ⟨fun _ => ⟨h, Nat.le_refl _, .same (.inr rfl) rfl⟩, fun _ => ?_⟩
  refine wp_mono (search_file_held h.cache_ok) ?_
  rintro r cur ⟨dir, hheld⟩
  refine ⟨fun _ => ?_, fun _ => ?_⟩
  · refine wp_mono (dir_open_spec (.inl fun _ => trivial)) fun d next hopen => ?_
    have hnext : DirHeld cur (some r.1) d next := .opened hopen
    refine wp_mono (dir_close_refs ((h.held hheld).held hnext)) ?_
    rintro _ last ⟨hrefs, hreq, _, _, hdirs⟩
    have hle := hheld.requests_le
    obtain ⟨p, mid, hmid, hnew, hd, rfl⟩ := hopen
    have hmid' := hmid.requests_le
    refine ⟨hrefs, by rw [hreq]; exact hle.trans hmid', .added d p rfl (Nat.lt_of_le_of_lt hle hnew)
      (hreq ▸ hd) ?_⟩
    rw [hdirs, hmid.dirs_eq]
    rcases hheld.dirs_eq with ⟨hroot, hcur⟩ | ⟨hroot, hold, e, hcur⟩
    · rw [if_pos hroot, hcur]
    · have hne : d ≠ r.2.parentDir := Nat.ne_of_gt (Nat.lt_of_le_of_lt hold hnew)
      rw [if_neg hroot, hcur, List.eraseP_cons_of_neg (by simpa using hne),
        List.eraseP_cons_of_pos (by simp)]
  · refine wp_mono (dir_close_holding h.cache_ok ⟨dir, cur, hheld, HandleFrame.refl cur⟩) ?_
    intro _ last hlast
    exact ⟨h.of_handle_frame hlast, hlast.requests, .same (.inl rfl) hlast.dirs_eq⟩

end LosKernel
