import LosKernel.Fs.Calls
import LosKernel.Fs.Cache

/-!
# What the work on blocks leaves alone

The functions on blocks, directory entries and inode records change the disk, the block bitmap,
the heap, and the sizes and block addresses of inodes in memory. `FsFrame` says that the handles,
the counts, the tables and the inode bitmap stay as they are.
-/

namespace LosKernel

open Prog

variable {s last mid cur next : Kernel} {p : Ptr} {ok : Stop → Prop} {n : UInt32}

/-- The fields of an inode that only the opening and closing of files change. -/
def INode.tag (inode : INode) : UInt32 × Nat × Bool :=
  (inode.iNo, inode.iOpenCnts, inode.writeDeny)

/-- Only blocks, block addresses, sizes and the heap differ. -/
structure FsFrame (s last : Kernel) : Prop where
  requests : s.heap.requests ≤ last.heap.requests
  rest : last = { s with
    heap := last.heap
    disk := last.disk
    part := { s.part with blockBitmap := last.part.blockBitmap }
    inodes := last.inodes }
  tags : ∀ p, (last.inodes p).map INode.tag = (s.inodes p).map INode.tag

namespace FsFrame

theorem refl (s : Kernel) : FsFrame s s := ⟨Nat.le_refl _, rfl, fun _ => rfl⟩

theorem trans (h : FsFrame s mid) (h' : FsFrame mid last) : FsFrame s last where
  requests := h.requests.trans h'.requests
  rest := by
    rw [h'.rest]
    conv_lhs => rw [h.rest]
  tags := fun p => (h'.tags p).trans (h.tags p)

instance : Std.Refl FsFrame := ⟨refl⟩

instance : IsTrans Kernel FsFrame := ⟨fun _ _ _ => trans⟩

theorem of_same_but_heap (h : SameButHeap s last) : FsFrame s last := by
  obtain ⟨heap, hheap, rfl⟩ := h
  exact ⟨hheap, rfl, fun _ => rfl⟩

theorem disk (s : Kernel) (disk : Bytes) : FsFrame s { s with disk := disk } :=
  ⟨Nat.le_refl _, rfl, fun _ => rfl⟩

theorem blockBitmap (s : Kernel) (bitmap : BitMap) :
    FsFrame s { s with part := { s.part with blockBitmap := bitmap } } :=
  ⟨Nat.le_refl _, rfl, fun _ => rfl⟩

/-- An inode in memory is replaced by one that differs in its size and its blocks. -/
theorem inode {old new : INode} (hold : s.inodes p = some old) (htag : new.tag = old.tag) :
    FsFrame s { s with inodes := Function.update s.inodes p (some new) } := by
  refine ⟨Nat.le_refl _, rfl, fun q => ?_⟩
  by_cases hq : q = p
  · subst hq
    simp [hold, htag]
  · simp [Function.update_of_ne hq]

end FsFrame

/-! ## Reading -/

theorem keeps_ide_read (lba : UInt32) (cnt : Nat) : Keeps FsFrame (ideRead lba cnt) :=
  .bind (.guard _ _) fun _ => .bind .state fun _ => .pure _

theorem keeps_ide_read_words (lba : UInt32) : Keeps FsFrame (ideReadWords lba) :=
  .bind (keeps_ide_read _ _) fun _ => .pure _

theorem keeps_sys_malloc (size : Nat) : Keeps FsFrame (sysMalloc size) := by
  intro s
  rw [wp_sys_malloc]
  exact ⟨fun _ => ⟨Nat.le_succ _, rfl, fun _ => rfl⟩, fun _ => ⟨Nat.le_succ _, rfl, fun _ => rfl⟩⟩

theorem keeps_sys_free (p : Ptr) : Keeps FsFrame (sysFree p) :=
  fun _ => ⟨Nat.le_refl _, rfl, fun _ => rfl⟩

theorem keeps_deref_inode (p : Ptr) : Keeps FsFrame (derefInode p) :=
  .bind .state fun _ => keeps_non_null _

theorem keeps_deref_dir (d : Ptr) : Keeps FsFrame (derefDir d) :=
  .bind .state fun _ => keeps_non_null _

theorem keeps_dir_inode (d : Ptr) : Keeps FsFrame (dirInode d) :=
  .bind (keeps_deref_dir d) fun _ => keeps_deref_inode _

theorem keeps_all_blocks_of (inode : INode) : Keeps FsFrame (allBlocksOf inode) :=
  .ite (.bind (keeps_ide_read_words _) fun _ => .pure _) (.pure _)

/-! ## Writing -/

theorem keeps_ide_write (lba : UInt32) (buf : Bytes) (cnt : Nat) :
    Keeps FsFrame (ideWrite lba buf cnt) := by
  intro s
  simpa using fun _ => FsFrame.disk s _

theorem keeps_inode_sync (inode : INode) (size : Nat) : Keeps FsFrame (inodeSync inode size) :=
  .bind (.bind (.guard _ _) fun _ => .bind .state fun _ => .pure _) fun _ =>
    .bind .state fun _ => .bind (.guard _ _) fun _ => .bind (.guard _ _) fun _ =>
      .bind (keeps_ide_read _ _) fun _ => keeps_ide_write _ _ _

theorem keeps_inode_delete (n : UInt32) (size : Nat) : Keeps FsFrame (inodeDelete n size) :=
  .bind (.bind (.guard _ _) fun _ => .bind .state fun _ => .pure _) fun _ =>
    .bind .state fun _ => .bind (.guard _ _) fun _ => .bind (.guard _ _) fun _ =>
      .bind (keeps_ide_read _ _) fun _ => keeps_ide_write _ _ _

theorem keeps_bitmap_sync (idx : UInt32) (btmp : BitmapType) :
    Keeps FsFrame (bitmapSync idx btmp) := by
  refine .bind .state fun _ => ?_
  cases btmp <;> exact keeps_ide_write _ _ _

theorem keeps_block_bitmap_alloc : Keeps FsFrame blockBitmapAlloc := by
  intro s
  rw [wp_block_bitmap_alloc]
  exact ⟨fun _ => FsFrame.refl s, fun i _ => FsFrame.blockBitmap s _⟩

theorem keeps_block_bitmap_set (idx : UInt32) (value : Bool) :
    Keeps FsFrame (blockBitmapSet idx value) := by
  intro s
  simpa [blockBitmapSet] using fun _ => FsFrame.blockBitmap s _

theorem keeps_store_sector (p : Ptr) (k : Nat) (lba : UInt32) :
    Keeps FsFrame (storeSector p k lba) := by
  intro s
  simp only [storeSector, wp_bind, wp_deref_inode, and_any]
  intro inode h
  exact FsFrame.inode h rfl

theorem keeps_grow_dir (p : Ptr) : Keeps FsFrame (growDir p) := by
  intro s
  simp only [growDir, wp_bind, wp_deref_inode, and_any]
  intro inode h
  exact FsFrame.inode h rfl

/-! ## Directory entries -/

theorem keeps_place_block (p : Ptr) (blockIdx : Nat) (allBlocks : Nat → UInt32)
    (blockLba : UInt32) : Keeps FsFrame (placeBlock p blockIdx allBlocks blockLba) := by
  refine .ite (.bind (keeps_store_sector _ _ _) fun _ => .pure _) (.ite ?_ ?_)
  · refine .bind (keeps_store_sector _ _ _) fun _ => .bind keeps_block_bitmap_alloc fun r => ?_
    cases r with
    | none =>
      exact .bind .state fun _ => .bind (keeps_block_bitmap_set _ _) fun _ =>
        .bind (keeps_store_sector _ _ _) fun _ => .pure _
    | some firstLba =>
      exact .bind .state fun _ => .bind (.guard _ _) fun _ =>
        .bind (keeps_bitmap_sync _ _) fun _ => .bind (keeps_ide_write _ _ _) fun _ => .pure _
  · exact .bind (keeps_deref_inode _) fun _ => .bind (keeps_ide_write _ _ _) fun _ => .pure _

theorem keeps_sync_new_block (p : Ptr) (e : DirEntry) (blockIdx : Nat)
    (allBlocks : Nat → UInt32) : Keeps FsFrame (syncNewBlock p e blockIdx allBlocks) := by
  refine .bind keeps_block_bitmap_alloc fun r => ?_
  cases r with
  | none => exact .pure _
  | some blockLba =>
    refine .bind .state fun _ => .bind (.guard _ _) fun _ =>
      .bind (keeps_bitmap_sync _ _) fun _ => .bind (keeps_place_block _ _ _ _) fun r => ?_
    cases r with
    | none => exact .pure _
    | some allBlocks =>
      exact .bind (keeps_ide_write _ _ _) fun _ => .bind (keeps_grow_dir _) fun _ => .pure _

theorem keeps_sync_into_block (p : Ptr) (e : DirEntry) (blockLba : UInt32) :
    Keeps FsFrame (syncIntoBlock p e blockLba) := by
  refine .bind .state fun s => .bind (keeps_ide_read _ _) fun b => ?_
  cases findFree b (dirEntrysPerSec s.part.sb) 0 with
  | none => exact .pure _
  | some idx =>
    exact .bind (keeps_ide_write _ _ _) fun _ => .bind (keeps_grow_dir _) fun _ => .pure _

theorem keeps_sync_blocks (p : Ptr) (e : DirEntry) (count : Nat) :
    ∀ blockIdx allBlocks, Keeps FsFrame (syncBlocks p e count blockIdx allBlocks) := by
  induction count with
  | zero => exact fun _ _ => .pure _
  | succ count ih =>
    intro blockIdx allBlocks
    refine .bind (.ite (keeps_sync_new_block _ _ _ _) (.pure _)) fun r => ?_
    cases r with
    | none => exact .pure _
    | some allBlocks =>
      exact .bind (keeps_sync_into_block _ _ _) fun _ => .ite (.pure _) (ih _ _)

theorem keeps_create_dir_entry (name : CStr) (n : UInt32) (t : FileType) :
    Keeps FsFrame (createDirEntry name n t) := .bind (.guard _ _) fun _ => .pure _

theorem keeps_sync_dir_entry (d : Ptr) (e : DirEntry) : Keeps FsFrame (syncDirEntry d e) :=
  .bind (keeps_deref_dir _) fun _ => .bind (keeps_deref_inode _) fun _ => .bind .state fun _ =>
    .bind (.guard _ _) fun _ => keeps_sync_blocks _ _ _ _ _

theorem keeps_scan_block (b : Bytes) (n : UInt32) (count : Nat) :
    ∀ idx scan, Keeps FsFrame (scanBlock b n count idx scan) := by
  induction count with
  | zero => exact fun _ _ => .pure _
  | succ count ih =>
    intro idx scan
    exact .ite (.ite (ih _ _) (.ite (.ite (.bind (.guard _ _) fun _ => ih _ _) (ih _ _))
      (ih _ _))) (ih _ _)

theorem keeps_drop_entry (p : Ptr) (blockIdx : Nat) (blockLba : UInt32) (b : Bytes)
    (scan : BlockScan) (idx : Nat) :
    Keeps FsFrame (dropEntry p blockIdx blockLba b scan idx) :=
  .ite (.bind .state fun _ => .bind (keeps_block_bitmap_set _ _) fun _ =>
    .bind (keeps_bitmap_sync _ _) fun _ => .ite (keeps_store_sector _ _ _) (.halt _))
    (keeps_ide_write _ _ _)

theorem keeps_delete_found (p : Ptr) (blockIdx : Nat) (blockLba : UInt32) (b : Bytes)
    (scan : BlockScan) (idx : Nat) :
    Keeps FsFrame (deleteFound p blockIdx blockLba b scan idx) := by
  refine .bind (.guard _ _) fun _ => .bind (keeps_drop_entry _ _ _ _ _ _) fun _ => ?_
  intro s
  simp only [wp_bind, wp_deref_inode, wp_assert, wp_store_inode, and_any]
  intro inode h _
  refine wp_mono (keeps_inode_sync _ _ _) fun _ _ hlast => FsFrame.trans ?_ hlast
  exact FsFrame.inode h rfl

theorem keeps_delete_blocks (p : Ptr) (n : UInt32) (allBlocks : Nat → UInt32) (count : Nat) :
    ∀ blockIdx, Keeps FsFrame (deleteBlocks p n allBlocks count blockIdx) := by
  induction count with
  | zero => exact fun _ => .pure _
  | succ count ih =>
    intro blockIdx
    refine .ite (ih _) (.bind .state fun s => .bind (keeps_ide_read _ _) fun b =>
      .bind (keeps_scan_block _ _ _ _ _) fun scan => ?_)
    cases scan.dirEntryFound with
    | none => exact ih _
    | some idx => exact .bind (keeps_delete_found _ _ _ _ _ _) fun _ => .pure _

theorem keeps_delete_dir_entry (d : Ptr) (n : UInt32) : Keeps FsFrame (deleteDirEntry d n) :=
  .bind (keeps_deref_dir _) fun _ => .bind (keeps_deref_inode _) fun _ =>
    .bind (keeps_all_blocks_of _) fun _ => keeps_delete_blocks _ _ _ _ _

/-! ## Blocks of files -/

theorem keeps_release_block (lba : UInt32) : Keeps FsFrame (releaseBlock lba) :=
  .bind .state fun _ => .bind (.guard _ _) fun _ => .bind (keeps_block_bitmap_set _ _) fun _ =>
    keeps_bitmap_sync _ _

theorem keeps_release_blocks (allBlocks : Nat → UInt32) (count : Nat) :
    ∀ blockIdx, Keeps FsFrame (releaseBlocks allBlocks count blockIdx) := by
  induction count with
  | zero => exact fun _ => .pure _
  | succ count ih => exact fun _ => .bind (.when (keeps_release_block _)) fun _ => ih _

/-! ## Work between opening and closing -/

/-- The handles are as before: only blocks, block addresses, sizes, bitmaps and the heap differ. -/
structure HandleFrame (s last : Kernel) : Prop where
  requests : s.heap.requests ≤ last.heap.requests
  rest : last = { s with
    heap := last.heap
    disk := last.disk
    part := { s.part with
      blockBitmap := last.part.blockBitmap
      inodeBitmap := last.part.inodeBitmap }
    inodes := last.inodes }
  tags : ∀ p, (last.inodes p).map INode.tag = (s.inodes p).map INode.tag

theorem FsFrame.handle (h : FsFrame s last) : HandleFrame s last where
  requests := h.requests
  rest := by
    have hbits : last.part.inodeBitmap = s.part.inodeBitmap := by rw [h.rest]
    rw [hbits]
    exact h.rest
  tags := h.tags

theorem FsFrame.inode_bitmap_eq (h : FsFrame s last) :
    last.part.inodeBitmap = s.part.inodeBitmap := by rw [h.rest]

namespace HandleFrame

theorem refl (s : Kernel) : HandleFrame s s := (FsFrame.refl s).handle

theorem trans (h : HandleFrame s mid) (h' : HandleFrame mid last) :
    HandleFrame s last where
  requests := h.requests.trans h'.requests
  rest := by
    rw [h'.rest]
    conv_lhs => rw [h.rest]
  tags := fun p => (h'.tags p).trans (h.tags p)

instance : Std.Refl HandleFrame := ⟨refl⟩

instance : IsTrans Kernel HandleFrame := ⟨fun _ _ _ => trans⟩

theorem of_heap (s : Kernel) {heap : Heap} (h : s.heap.requests ≤ heap.requests) :
    HandleFrame s { s with heap := heap } := ⟨h, rfl, fun _ => rfl⟩

theorem free (s : Kernel) (p : Ptr) :
    HandleFrame s { s with heap := ⟨s.heap.requests, s.heap.live.erase p⟩ } :=
  of_heap s (Nat.le_refl s.heap.requests)

section

variable (h : HandleFrame s last)

include h

theorem with_file_table (fileTable : Nat → File) :
    HandleFrame { s with fileTable := fileTable } { last with fileTable := fileTable } where
  requests := h.requests
  rest := by conv_lhs => rw [h.rest]
  tags := h.tags

theorem open_inodes_eq : last.openInodes = s.openInodes := by rw [h.rest]

theorem dirs_eq : last.dirs = s.dirs := by rw [h.rest]

theorem file_table_eq : last.fileTable = s.fileTable := by rw [h.rest]

theorem tasks_eq : last.tasks = s.tasks := by
  rw [h.rest]

/-- The inode a pointer refers to keeps its number, its count and its flag. -/
theorem inode_of_eq_some {inode : INode} (hinode : s.inodes p = some inode) :
    ∃ inode', last.inodes p = some inode' ∧ inode'.tag = inode.tag := by
  have htag := h.tags p
  rw [hinode] at htag
  cases hlast : last.inodes p with
  | none => simp [hlast] at htag
  | some inode' => exact ⟨inode', rfl, by simpa [hlast] using htag⟩

theorem inode_eq_none (hnone : s.inodes p = none) : last.inodes p = none := by
  have htag := h.tags p
  rw [hnone] at htag
  simpa using htag

theorem cache_ok (hc : CacheOk s) : CacheOk last where
  fresh := fun p hp => h.inode_eq_none (hc.fresh p (Nat.lt_of_le_of_lt h.requests hp))
  counted := by
    intro p hp
    rw [h.open_inodes_eq] at hp
    obtain ⟨inode, hinode, hcnt⟩ := hc.counted p hp
    obtain ⟨inode', hinode', htag⟩ := h.inode_of_eq_some hinode
    have hcnt' : inode'.iOpenCnts = inode.iOpenCnts := congrArg (fun tag => tag.2.1) htag
    exact ⟨inode', hinode', hcnt' ▸ hcnt⟩

end

end HandleFrame

/-- Closing an inode after work that left the handles alone gives the old handles back. -/
theorem inode_close_after (hc : CacheOk s) (hopen : InodeOpened s n p cur)
    (hwork : HandleFrame cur next) :
    wp ok (inodeClose p) next fun _ last => HandleFrame s last := by
  rw [wp_inode_close]
  cases hopen with
  | hit old heap hfind hold hheap hlast =>
    subst hlast
    obtain ⟨hmem, -⟩ := find_open_inode_eq_some hfind
    obtain ⟨inode, hinode, hcnt⟩ := hc.counted p hmem
    obtain rfl : old = inode := Option.some.inj (hold.symm.trans hinode)
    obtain ⟨new, hnew, htag⟩ := hwork.inode_of_eq_some (Function.update_self ..)
    simp only [INode.tag, Prod.mk.injEq] at htag
    obtain ⟨hno, hcnt', hdeny⟩ := htag
    refine ⟨fun hnone => by simp [hnew] at hnone, fun inode' hinode' => ?_⟩
    obtain rfl : new = inode' := Option.some.inj (hnew.symm.trans hinode')
    refine ⟨by omega, fun _ => ⟨hheap.trans hwork.requests, ?_, fun q => ?_⟩⟩
    · rw [hwork.rest]
    · by_cases hq : q = p
      · subst hq
        simp [hold, INode.tag, hno, hcnt', hdeny]
      · have := hwork.tags q
        simpa [Function.update_of_ne hq] using this
  | miss heap hfind hn hnew hheap hlast =>
    subst hlast
    obtain ⟨new, hnew', htag⟩ := hwork.inode_of_eq_some (Function.update_self ..)
    simp only [INode.tag, Prod.mk.injEq] at htag
    have hopens : next.openInodes = p :: s.openInodes := hwork.open_inodes_eq
    refine ⟨fun hnone => by simp [hnew'] at hnone, fun inode' hinode' => ?_⟩
    obtain rfl : new = inode' := Option.some.inj (hnew'.symm.trans hinode')
    refine ⟨fun _ => ⟨fun _ => ?_, fun hnot => by simp [hopens] at hnot⟩,
      fun h1 => absurd htag.2.1 h1⟩
    have hle : heap.requests ≤ next.heap.requests := hwork.requests
    refine ⟨((Nat.le_of_lt hnew).trans hheap).trans hle, ?_, fun q => ?_⟩
    · simp only [dropInode, hopens, List.erase_cons_head]
      rw [hwork.rest]
      rfl
    · by_cases hq : q = p
      · subst hq
        simp [dropInode, hc.fresh q hnew]
      · have := hwork.tags q
        simpa [dropInode, pushInode, Function.update_of_ne hq] using this

theorem inode_close_frame : wp any (inodeClose p) s fun _ last =>
      last.heap.requests = s.heap.requests ∧ last = { s with
        heap := last.heap
        openInodes := last.openInodes
        inodes := last.inodes } := by
  rw [wp_inode_close]
  exact ⟨fun _ => trivial, fun _ _ => ⟨fun _ => ⟨fun _ => ⟨rfl, rfl⟩, fun _ => trivial⟩,
    fun _ => ⟨rfl, rfl⟩⟩⟩

theorem SameButHeap.handle (h : SameButHeap s last) : HandleFrame s last :=
  (FsFrame.of_same_but_heap h).handle

/-- Closing a held directory after work that left the handles alone gives the old handles back. -/
theorem dir_close_after {dir : Option UInt32} {d : Ptr} (hc : CacheOk s)
    (hheld : DirHeld s dir d cur) (hwork : HandleFrame cur next) :
    wp ok (dirClose d) next fun _ last => HandleFrame s last := by
  cases hheld with
  | root h =>
    exact h.handle.trans hwork
  | opened h =>
    obtain ⟨p, mid, hopen, hnew, -, rfl⟩ := h
    have hd : d ≠ rootDir := Nat.ne_of_gt (Nat.lt_of_le_of_lt (Nat.zero_le _) hnew)
    have hdirs : next.dirs = (d, ⟨p, 0⟩) :: mid.dirs := hwork.dirs_eq
    simp only [dirClose, hd, if_false, wp_bind, wp_deref_dir, hdirs, of_some, List.lookup_cons_self]
    have hc' : CacheOk { s with dirs := (d, ⟨p, 0⟩) :: mid.dirs } := ⟨hc.fresh, hc.counted⟩
    refine wp_mono (inode_close_after hc' (hopen.with_dirs _) hwork) ?_
    intro _ last hlast
    refine ⟨hlast.requests, ?_, hlast.tags⟩
    rw [hlast.rest]
    simp [hopen.dirs_eq]

/-- `inode_release` gives the handles back. -/
theorem inode_release_frame (hc : CacheOk s) :
    wp any (inodeRelease n) s fun _ last => HandleFrame s last := by
  refine wp_seq (inode_open_spec (.inl fun _ => trivial)) fun p cur hopen => ?_
  simp only [wp_bind, wp_deref_inode, wp_assert, and_any]
  intro inode hinode _
  refine wp_mono (keeps_all_blocks_of inode cur) fun blocks s1 h1 => ?_
  refine wp_mono (Keeps.when (keeps_release_block _) s1) fun _ s2 h2 => ?_
  refine wp_mono (keeps_release_blocks _ _ _ s2) fun _ s3 h3 => ?_
  simp only [inodeBitmapSet, wp_bind, wp_access, wp_update, and_any]
  intro _
  have h03 : FsFrame cur s3 := (h1.trans h2).trans h3
  set s4 : Kernel := { s3 with part :=
    { s3.part with inodeBitmap := bitmapSet s3.part.inodeBitmap n.toNat false } } with hs4
  have h34 : HandleFrame s3 s4 := ⟨Nat.le_refl _, rfl, fun _ => rfl⟩
  refine wp_mono (keeps_bitmap_sync _ _ s4) fun _ s5 h5 => ?_
  refine wp_mono (keeps_sys_malloc _ s5) fun r s6 h6 => ?_
  refine wp_mono ((keeps_non_null r : Keeps FsFrame _) s6) fun ioBuf s7 h7 => ?_
  refine wp_mono (keeps_inode_delete _ _ s7) fun _ s8 h8 => ?_
  refine wp_mono (keeps_sys_free _ s8) fun _ s9 h9 => ?_
  have h49 : FsFrame s4 s9 := (((h5.trans h6).trans h7).trans h8).trans h9
  have hwork : HandleFrame cur s9 := (h03.handle.trans h34).trans h49.handle
  exact inode_close_after hc hopen hwork

end LosKernel
