import LosKernel.Fs.Dir
import LosKernel.Fs.InodeTable
import Mathlib.Data.List.Find

/-!
# Open inodes and directory handles

What `inode_open`, `inode_close`, `dir_open` and `dir_close` do to the cache of open inodes and to
the directory handles. `dir_close_opened` says that closing what was just opened gives the old
state back, up to the heap.
-/

namespace LosKernel

open Prog hiding update
open Function (update update_of_ne update_self)

variable {s cur last mid : Kernel} {n : UInt32} {p d : Ptr} {dir : Option UInt32}
  {ok : Stop → Prop}

/-! ## States that differ in their heap -/

/-- `last` is `s` after requests and releases of memory only. -/
def SameButHeap (s last : Kernel) : Prop :=
  ∃ heap : Heap, s.heap.requests ≤ heap.requests ∧ last = { s with heap := heap }

theorem SameButHeap.refl (s : Kernel) : SameButHeap s s := ⟨s.heap, Nat.le_refl _, rfl⟩

theorem SameButHeap.trans (h : SameButHeap s mid) (h' : SameButHeap mid last) :
    SameButHeap s last := by
  obtain ⟨heap, hheap, rfl⟩ := h
  obtain ⟨heap', hheap', rfl⟩ := h'
  exact ⟨heap', hheap.trans hheap', rfl⟩

/-- The cache is in order: no inode lies at an address that was not handed out yet, and every open
inode is in memory and has a handle. -/
structure CacheOk (s : Kernel) : Prop where
  fresh : ∀ p, s.heap.requests < p → s.inodes p = none
  counted : ∀ p ∈ s.openInodes, ∃ inode, s.inodes p = some inode ∧ 1 ≤ inode.iOpenCnts

theorem CacheOk.same_but_heap (hc : CacheOk s) (h : SameButHeap s last) : CacheOk last := by
  obtain ⟨heap, hheap, rfl⟩ := h
  exact ⟨fun p hp => hc.fresh p (Nat.lt_of_le_of_lt hheap hp), hc.counted⟩

theorem find_open_inode_eq_some (h : findOpenInode s n = some p) :
    p ∈ s.openInodes ∧ ∃ inode, s.inodes p = some inode ∧ inode.iNo = n := by
  have hmem := List.mem_of_find?_eq_some h
  have hany := List.find?_some h
  cases hinode : s.inodes p with
  | none => simp [hinode] at hany
  | some inode => exact ⟨hmem, inode, rfl, by simpa [hinode] using hany⟩

/-! ## Opening an inode -/

/-- `last` is `s` after `inode_open` returned `p` for inode number `n`. -/
inductive InodeOpened (s : Kernel) (n : UInt32) (p : Ptr) (last : Kernel) : Prop where
  | hit (inode : INode) (heap : Heap) (hfind : findOpenInode s n = some p)
      (hinode : s.inodes p = some inode) (hheap : s.heap.requests ≤ heap.requests)
      (hlast : last = { s with
        heap := heap
        inodes := update s.inodes p
          (some { inode with iOpenCnts := inode.iOpenCnts + 1 }) })
  | miss (heap : Heap) (hfind : findOpenInode s n = none) (hn : n.toNat < 4096)
      (hnew : s.heap.requests < p) (hheap : p ≤ heap.requests)
      (hlast : last = pushInode s heap p { inodeLoaded s n with iOpenCnts := 1 })

theorem InodeOpened.requests_le (h : InodeOpened s n p last) :
    s.heap.requests ≤ last.heap.requests := by
  cases h with
  | hit inode heap hfind hinode hheap hlast =>
    subst hlast
    exact hheap
  | miss heap hfind hn hnew hheap hlast =>
    subst hlast
    exact (Nat.le_of_lt hnew).trans hheap

theorem InodeOpened.mem (h : InodeOpened s n p last) : p ∈ last.openInodes := by
  cases h with
  | hit inode heap hfind hinode hheap hlast => exact hlast ▸ (find_open_inode_eq_some hfind).1
  | miss heap hfind hn hnew hheap hlast => exact hlast ▸ List.mem_cons_self

/-- What was opened from a state that differs in the heap was opened from the state itself. -/
theorem InodeOpened.of_same_but_heap (hs : SameButHeap s mid) (h : InodeOpened mid n p last) :
    InodeOpened s n p last := by
  obtain ⟨heap, hheap, rfl⟩ := hs
  cases h with
  | hit inode heap' hfind hinode hheap' hlast =>
    exact .hit inode heap' hfind hinode (hheap.trans hheap') hlast
  | miss heap' hfind hn hnew hheap' hlast =>
    exact .miss heap' hfind hn (Nat.lt_of_le_of_lt hheap hnew) hheap' hlast

/-- `inode_open` finds the inode in the cache or loads it. -/
theorem inode_open_spec (hok : (∀ r, ok r) ∨ HeapOk s ∧ TableLaidOut s.part ∧ n.toNat < 4096) :
    wp ok (inodeOpen n) s fun p last => InodeOpened s n p last := by
  cases hfind : findOpenInode s n with
  | none =>
    refine wp_mono (inode_open_miss hok hfind) ?_
    intro p last ⟨hn, heap, hnew, hheap, hlast⟩
    exact .miss heap hfind hn hnew hheap hlast
  | some p =>
    obtain ⟨-, inode, hinode, -⟩ := find_open_inode_eq_some hfind
    simp only [inodeOpen, wp_bind, wp_state, hfind, wp_deref_inode, hinode, of_some]
    exact .hit inode s.heap hfind hinode le_rfl rfl

/-! ## Closing an inode -/

/-- The state after the last handle of inode `p` was closed. -/
def dropInode (s : Kernel) (heap : Heap) (p : Ptr) : Kernel :=
  { s with
    heap := heap
    openInodes := s.openInodes.erase p
    inodes := update s.inodes p none }

/-- `inode_close` drops the last handle or counts down. -/
theorem wp_inode_close {Q : Unit → Kernel → Prop} : wp ok (inodeClose p) s Q ↔
      (s.inodes p = none → ok .badAccess) ∧ ∀ inode, s.inodes p = some inode →
        (inode.iOpenCnts = 1 →
          (p ∈ s.openInodes → Q () (dropInode s ⟨s.heap.requests, s.heap.live.erase p⟩ p)) ∧
          (p ∉ s.openInodes → ok .badAccess)) ∧
        (inode.iOpenCnts ≠ 1 → Q () { s with inodes := update s.inodes p (some { inode with
            iOpenCnts := if inode.iOpenCnts = 0 then 2 ^ 32 - 1
              else inode.iOpenCnts - 1 }) }) := by
  simp only [inodeClose, wp_bind, wp_deref_inode, wp_ite, wp_access, decide_eq_true_eq,
    decide_eq_false_iff_not]
  exact and_comm

/-- Closing the inode that was just opened gives the old state back. -/
theorem inode_close_opened (hc : CacheOk s) (h : InodeOpened s n p cur) :
    wp ok (inodeClose p) cur fun _ last => SameButHeap s last := by
  rw [wp_inode_close]
  cases h with
  | hit old heap hfind hold hheap hlast =>
    subst hlast
    obtain ⟨hmem, -⟩ := find_open_inode_eq_some hfind
    obtain ⟨inode, hinode, hcnt⟩ := hc.counted p hmem
    obtain rfl : old = inode := Option.some.inj (hold.symm.trans hinode)
    simp only [update_self, Option.some.injEq, forall_eq', reduceCtorEq, false_implies,
      true_and]
    refine ⟨by omega, fun _ => ⟨heap, hheap, ?_⟩⟩
    simp only [if_false, Nat.add_sub_cancel, Function.update_idem]
    rw [← hold, Function.update_eq_self]
  | miss heap hfind hn hnew hheap hlast =>
    subst hlast
    simp only [pushInode, update_self, Option.some.injEq, forall_eq', reduceCtorEq,
      false_implies, true_and, List.mem_cons, true_or, not_true_eq_false, forall_const, and_true,
      ne_eq]
    refine ⟨⟨heap.requests, heap.live.erase p⟩, (Nat.le_of_lt hnew).trans hheap, ?_⟩
    simp only [dropInode, List.erase_cons_head, Function.update_idem]
    rw [← hc.fresh p hnew, Function.update_eq_self]

/-! ## Directory handles -/

/-- `last` is `s` after `dir_open` returned the handle `d` for inode number `n`. -/
def DirOpened (s : Kernel) (n : UInt32) (d : Ptr) (last : Kernel) : Prop :=
  ∃ p mid, InodeOpened s n p mid ∧ s.heap.requests < d ∧ d ≤ mid.heap.requests ∧
    last = { mid with dirs := (d, ⟨p, 0⟩) :: mid.dirs }

theorem InodeOpened.dirs_eq (h : InodeOpened s n p last) : last.dirs = s.dirs := by
  cases h with
  | hit inode heap hfind hinode hheap hlast => rw [hlast]
  | miss heap hfind hn hnew hheap hlast => rw [hlast]; rfl

theorem InodeOpened.with_dirs (h : InodeOpened s n p last) (dirs : List (Ptr × Dir)) :
    InodeOpened { s with dirs := dirs } n p { last with dirs := dirs } := by
  cases h with
  | hit inode heap hfind hinode hheap hlast =>
    exact .hit inode heap hfind hinode hheap (by rw [hlast])
  | miss heap hfind hn hnew hheap hlast =>
    exact .miss heap hfind hn hnew hheap (by rw [hlast]; rfl)

/-- `dir_open` opens the inode of the directory. -/
theorem dir_open_spec (hok : (∀ r, ok r) ∨ HeapOk s ∧ TableLaidOut s.part ∧ n.toNat < 4096) :
    wp ok (dirOpen n) s fun d last => DirOpened s n d last := by
  simp only [dirOpen, wp_bind, wp_sys_malloc]
  have hsame : ∀ heap : Heap, heap.requests = s.heap.requests + 1 →
      SameButHeap s { s with heap := heap } := fun heap h => ⟨heap, by omega, rfl⟩
  constructor
  · intro _
    refine wp_mono (inode_open_spec hok) ?_
    intro p mid hopen
    have hle := hopen.requests_le
    exact ⟨p, mid, hopen.of_same_but_heap (hsame _ rfl), by omega, by simpa using hle, rfl⟩
  · intro hrefused
    refine wp_mono (inode_open_spec hok) ?_
    intro p mid _
    rcases hok with hok | ⟨hheap, -, -⟩
    · simp [hok]
    · simp [hheap _ _] at hrefused

/-- Closing the directory that was just opened gives the old state back. -/
theorem dir_close_opened (hc : CacheOk s) (h : DirOpened s n d cur) :
    wp ok (dirClose d) cur fun _ last => SameButHeap s last := by
  obtain ⟨p, mid, hopen, hnew, -, rfl⟩ := h
  have hd : d ≠ rootDir := Nat.ne_of_gt (Nat.lt_of_le_of_lt (Nat.zero_le _) hnew)
  simp only [dirClose, hd, if_false, wp_bind, wp_deref_dir, of_some, List.lookup_cons_self]
  have hc' : CacheOk { s with dirs := (d, ⟨p, 0⟩) :: mid.dirs } := ⟨hc.fresh, hc.counted⟩
  refine wp_mono (inode_close_opened hc' (hopen.with_dirs _)) ?_
  rintro _ last ⟨heap, hheap, rfl⟩
  refine ⟨⟨heap.requests, heap.live.erase d⟩, hheap, ?_⟩
  simp [hopen.dirs_eq]

/-! ## The directory a search is in -/

/-- The inode that `inode_open` returns for number `n`, up to its count of handles. -/
def inodeVersion (s : Kernel) (n : UInt32) : INode :=
  ((findOpenInode s n).bind s.inodes).getD (inodeLoaded s n)

/-- The inode of a directory: of `root_dir` for `none`, of the directory opened for an inode number
otherwise. -/
def dirVersion (s : Kernel) : Option UInt32 → INode
  | none => ((s.dirs.lookup rootDir).bind fun d => s.inodes d.inode).getD (inodeInit 0)
  | some n => inodeVersion s n

/-- `cur` is `s` with the directory `dir` held by the handle `d`. -/
inductive DirHeld (s : Kernel) : Option UInt32 → Ptr → Kernel → Prop where
  | root {cur : Kernel} (h : SameButHeap s cur) : DirHeld s none rootDir cur
  | opened {n : UInt32} {d : Ptr} {cur : Kernel} (h : DirOpened s n d cur) :
      DirHeld s (some n) d cur

/-- The inode that was opened is the version of its number. -/
theorem InodeOpened.version (h : InodeOpened s n p cur) :
    ∃ cnt, cur.inodes p = some { inodeVersion s n with iOpenCnts := cnt } := by
  cases h with
  | hit inode heap hfind hinode hheap hlast =>
    simp [hlast, inodeVersion, hfind, hinode]
  | miss heap hfind hn hnew hheap hlast =>
    simp [hlast, pushInode, inodeVersion, hfind]

/-- Inodes are found as before if one of them changes and keeps its number. -/
theorem find_open_inode_update {inode inode' : INode} (hopen : last.openInodes = s.openInodes)
    (hinodes : last.inodes = update s.inodes p (some inode')) (hinode : s.inodes p = some inode)
    (hno : inode'.iNo = inode.iNo) (m : UInt32) : findOpenInode last m = findOpenInode s m := by
  have hany : ∀ q, (last.inodes q).any (fun inode => inode.iNo == m) =
      (s.inodes q).any fun inode => inode.iNo == m := by
    intro q
    by_cases hq : q = p
    · subst hq
      simp [hinodes, hinode, hno]
    · rw [hinodes, update_of_ne hq]
  simp only [findOpenInode, hopen, hany]

/-- The versions of the inodes after one was opened: as before up to the count of handles, or the
one that was loaded. -/
theorem InodeOpened.version_cases (hc : CacheOk s) (h : InodeOpened s n p cur) (m : UInt32) :
    (∃ cnt, inodeVersion cur m = { inodeVersion s m with iOpenCnts := cnt }) ∨
      n.toNat < 4096 ∧ findOpenInode s n = none ∧ (inodeLoaded s n).iNo = m ∧
        inodeVersion cur m = { inodeLoaded s n with iOpenCnts := 1 } := by
  cases h with
  | hit inode heap hfind hinode hheap hlast =>
    left
    have hsame : findOpenInode cur m = findOpenInode s m :=
      find_open_inode_update (by rw [hlast]) (congrArg Kernel.inodes hlast) hinode rfl m
    have hload : inodeLoaded cur m = inodeLoaded s m := by rw [hlast]; rfl
    simp only [inodeVersion, hsame, hload]
    cases hq : findOpenInode s m with
    | none => exact ⟨(inodeLoaded s m).iOpenCnts, rfl⟩
    | some q =>
      by_cases hqp : q = p
      · subst hqp
        simp [hlast, hinode]
      · simp only [hlast, Option.bind_some, update_of_ne hqp]
        exact ⟨_, rfl⟩
  | miss heap hfind hn hnew hheap hlast =>
    have hne : ∀ q ∈ s.openInodes, q ≠ p := by
      rintro q hq rfl
      obtain ⟨inode, hinode, -⟩ := hc.counted q hq
      simp [hc.fresh q hnew] at hinode
    have hload : inodeLoaded cur m = inodeLoaded s m := by rw [hlast]; rfl
    by_cases hm : (inodeLoaded s n).iNo = m
    · exact .inr ⟨hn, hfind, hm, by simp [inodeVersion, findOpenInode, hlast, pushInode, hm]⟩
    · left
      have hfound : findOpenInode cur m = findOpenInode s m := by
        simp only [findOpenInode, hlast, pushInode, List.find?_cons, update_self,
          Option.any_some, beq_eq_false_iff_ne.2 hm]
        exact List.find?_congr fun q hq => by rw [update_of_ne (hne q hq)]
      simp only [inodeVersion, hfound, hload]
      cases hq : findOpenInode s m with
      | none => exact ⟨(inodeLoaded s m).iOpenCnts, rfl⟩
      | some q =>
        obtain ⟨hmem, -⟩ := find_open_inode_eq_some hq
        simp only [hlast, pushInode, Option.bind_some, update_of_ne (hne q hmem)]
        exact ⟨_, rfl⟩

/-- Opening an inode changes its count of handles only. -/
theorem InodeOpened.version_eq (hc : CacheOk s) (h : InodeOpened s n p cur)
    (hno : (inodeVersion s n).iNo = n) (m : UInt32) :
    ∃ cnt, inodeVersion cur m = { inodeVersion s m with iOpenCnts := cnt } := by
  refine (h.version_cases hc m).elim id ?_
  rintro ⟨-, hfind, hm, hversion⟩
  have hload : inodeVersion s n = inodeLoaded s n := by simp [inodeVersion, hfind]
  obtain rfl : n = m := by rw [← hno, hload, hm]
  exact ⟨1, by rw [hversion, hload]⟩

theorem InodeOpened.then_heap (h : InodeOpened s n p cur) (hs : SameButHeap cur last) :
    InodeOpened s n p last := by
  obtain ⟨heap', hheap', rfl⟩ := hs
  cases h with
  | hit inode heap hfind hinode hheap hlast =>
    subst hlast
    exact .hit inode heap' hfind hinode (hheap.trans hheap') rfl
  | miss heap hfind hn hnew hheap hlast =>
    subst hlast
    exact .miss heap' hfind hn hnew (hheap.trans hheap') rfl

/-- Holding a directory changes counts of handles only. -/
theorem DirHeld.version (hc : CacheOk s) (h : DirHeld s dir d cur)
    (hno : ∀ n ∈ dir, (inodeVersion s n).iNo = n) (m : UInt32) :
    ∃ cnt, inodeVersion cur m = { inodeVersion s m with iOpenCnts := cnt } := by
  cases h with
  | root h =>
    obtain ⟨heap, -, rfl⟩ := h
    exact ⟨(inodeVersion s m).iOpenCnts, rfl⟩
  | opened h =>
    obtain ⟨p, mid, hopen, -, -, rfl⟩ := h
    exact hopen.version_eq hc (hno _ rfl) m

theorem DirHeld.then_heap (h : DirHeld s dir d cur) (hs : SameButHeap cur last) :
    DirHeld s dir d last := by
  cases h with
  | root h => exact .root (h.trans hs)
  | opened h =>
    obtain ⟨p, mid, hopen, hnew, hd, rfl⟩ := h
    obtain ⟨heap, hheap, rfl⟩ := hs
    exact .opened ⟨p, { mid with heap := heap }, hopen.then_heap ⟨heap, hheap, rfl⟩, hnew,
      hd.trans hheap, rfl⟩

theorem InodeOpened.frame (h : InodeOpened s n p cur) : cur = { s with
      heap := cur.heap
      openInodes := cur.openInodes
      inodes := cur.inodes } := by
  cases h with
  | hit inode heap hfind hinode hheap hlast => rw [hlast]
  | miss heap hfind hn hnew hheap hlast => rw [hlast]; rfl

/-- Holding a directory changes the heap, the cache and the handles only. -/
theorem DirHeld.frame (h : DirHeld s dir d cur) : cur = { s with
      heap := cur.heap
      openInodes := cur.openInodes
      inodes := cur.inodes
      dirs := cur.dirs } := by
  cases h with
  | root h =>
    obtain ⟨heap, -, rfl⟩ := h
    rfl
  | opened h =>
    obtain ⟨p, mid, hopen, -, -, rfl⟩ := h
    rw [hopen.frame]

theorem DirOpened.of_same_but_heap (hs : SameButHeap s mid) (h : DirOpened mid n d last) :
    DirOpened s n d last := by
  obtain ⟨p, next, hopen, hnew, hd, hlast⟩ := h
  have hle : s.heap.requests ≤ mid.heap.requests := by
    obtain ⟨heap, hheap, rfl⟩ := hs
    exact hheap
  exact ⟨p, next, hopen.of_same_but_heap hs, Nat.lt_of_le_of_lt hle hnew, hd, hlast⟩

/-- Closing a held directory gives the old state back. -/
theorem dir_close_held (hc : CacheOk s) (h : DirHeld s dir d cur) :
    wp ok (dirClose d) cur fun _ last => SameButHeap s last := by
  cases h with
  | root h => simpa [dirClose] using h
  | opened h => exact dir_close_opened hc h

theorem DirHeld.disk_eq (h : DirHeld s dir d cur) : cur.disk = s.disk := by rw [h.frame]

theorem DirHeld.part_eq (h : DirHeld s dir d cur) : cur.part = s.part := by rw [h.frame]

theorem DirHeld.grant_eq (h : DirHeld s dir d cur) : cur.grant = s.grant := by rw [h.frame]

/-- The root directory is open. -/
def RootOpen (s : Kernel) : Prop :=
  ∃ d inode, s.dirs.lookup rootDir = some d ∧ s.inodes d.inode = some inode

theorem DirHeld.memory (h : DirHeld s dir d cur) (hroot : RootOpen s) :
    ∃ e cnt, cur.dirs.lookup d = some e ∧
      cur.inodes e.inode = some { dirVersion s dir with iOpenCnts := cnt } := by
  cases h with
  | root h =>
    obtain ⟨heap, -, rfl⟩ := h
    obtain ⟨e, inode, hdir, hinode⟩ := hroot
    have hversion : dirVersion s none = inode := by simp [dirVersion, hdir, hinode]
    exact ⟨e, inode.iOpenCnts, hdir, by rw [hversion]; exact hinode⟩
  | opened h =>
    obtain ⟨p, mid, hopen, -, -, rfl⟩ := h
    obtain ⟨cnt, hcnt⟩ := hopen.version
    exact ⟨⟨p, 0⟩, cnt, List.lookup_cons_self, hcnt⟩

/-- The inode of a held directory is the version of that directory. -/
theorem wp_dir_inode {Q : INode → Kernel → Prop} (hok : (∀ r, ok r) ∨ RootOpen s)
    (h : DirHeld s dir d cur) (hQ : ∀ cnt, Q { dirVersion s dir with iOpenCnts := cnt } cur) :
    wp ok (dirInode d) cur Q := by
  simp only [dirInode, wp_bind, wp_deref_dir, wp_deref_inode]
  cases h with
  | root h =>
    obtain ⟨heap, -, rfl⟩ := h
    dsimp only
    refine ⟨fun e he => ⟨fun inode hinode => ?_, ?_⟩, ?_⟩
    · have hv : dirVersion s none = inode := by simp [dirVersion, he, hinode]
      simpa [hv] using hQ inode.iOpenCnts
    · intro hnone
      rcases hok with hok | ⟨e', inode, he', hinode⟩
      · exact hok _
      · rw [he'] at he
        cases he
        simp [hinode] at hnone
    · intro hnone
      rcases hok with hok | ⟨e', inode, he', hinode⟩
      · exact hok _
      · simp [he'] at hnone
  | opened h =>
    obtain ⟨p, mid, hopen, -, -, rfl⟩ := h
    obtain ⟨cnt, hcnt⟩ := hopen.version
    simp [hcnt]
    exact hQ cnt

end LosKernel
