import LosKernel.Fs.Canonical
import LosKernel.Fs.DirDelete

/-!
# A mkdir that fails

`sys_mkdir` takes an inode and a block before it enters the new directory in its parent. When the
parent cannot take the entry, the rollback clears the bit of the inode and forgets the block.
`mkdir_rolls_back_iff` says for which paths and states this happens, and that nothing else is left
behind.
-/

namespace LosKernel

open Prog

variable {name path : CStr} {m parentNo : UInt32} {s last cur : Kernel} {names : List CStr}
  {isDir : UInt32 → Prop} {ok : Stop → Prop} {inode : INode} {i : Nat} {parent : Option UInt32}
  {d ioBuf : Ptr}

variable {n : UInt32}

/-! ## Where a search for a new name ends -/

section

variable (ht : TreeOk s isDir)

include ht

theorem lookup_entry_eq_none (hn : isDir n) (hname : name ≠ []) :
    lookupEntry s (inodeVersion s n) name = none ↔ ∀ m t, ¬Names s n name m t := by
  constructor
  · intro hnone m t hnames
    obtain ⟨e, hlookup, -⟩ := lookup_of_names ht hn hname hnames
    simp [hnone] at hlookup
  · intro hno
    cases hlookup : lookupEntry s (inodeVersion s n) name with
    | none => rfl
    | some e =>
      rcases names_of_lookup ht hn hname hlookup with ⟨-, hnames⟩ | ⟨-, -, hnames⟩
      · exact absurd hnames (hno _ _)
      · exact absurd hnames (hno _ _)

theorem lookup_from_new (hname : name ≠ []) : ∀ (pre : List CStr) (searched : CStr)
    (dir : Option UInt32) (parentNo last m : UInt32), isDir (dir.getD 0) →
    (∀ n ∈ pre, n ≠ []) → Walk s (dir.getD 0) .directory pre m .directory →
    (∀ k t, ¬Names s m name k t) →
    (lookupFrom s (pre ++ [name]) searched dir parentNo last).inodeNo = noInode ∧
      (lookupFrom s (pre ++ [name]) searched dir parentNo last).parent.getD 0 = m ∧
      (lookupFrom s (pre ++ [name]) searched dir parentNo last).searchedPath =
        searched ++ (pre ++ [name]).flatMap (slash :: ·) := by
  intro pre
  induction pre with
  | nil =>
    intro searched dir parentNo last m hdir _ hwalk hno
    cases hwalk
    have hnone := (lookup_entry_eq_none ht hdir hname).2 hno
    rw [← dir_version_eq ht] at hnone
    rw [List.nil_append, lookupFrom, hnone]
    exact ⟨rfl, rfl, by simp⟩
  | cons first pre ih =>
    intro searched dir parentNo last m hdir hpre hwalk hno
    obtain ⟨hfirst, hrest⟩ := List.forall_mem_cons.1 hpre
    cases hwalk with
    | @cons _ k _ t _ _ _ hentry hwalk =>
      obtain rfl : t = .directory := by
        cases hwalk with
        | nil => rfl
        | cons => rfl
      obtain ⟨e, hlookup, rfl, htype⟩ := lookup_of_names ht hdir hfirst hentry
      rw [← dir_version_eq ht] at hlookup
      have hchild := (names_target ht hdir hentry).2 rfl
      obtain ⟨hmissing, hparent, hpath⟩ := ih (searched ++ [slash] ++ first) (some e.iNo)
        (dirVersion s dir).iNo e.iNo m hchild hrest hwalk hno
      rw [List.cons_append, lookupFrom, hlookup]
      simp only [htype, if_true]
      exact ⟨hmissing, hparent, by rw [hpath]; simp⟩

end

/-- A search for `names` from the directory `n` on ended without a result: it went through the
directories `pre` and did not find `name` in the last of them, which it left open. -/
structure MissingAt (s : Kernel) (n : UInt32) (names : List CStr) (searched : CStr)
    (found : PathSearchRecord) (last : Kernel) (pre : List CStr) (name : CStr) (suf : List CStr)
    (parent : Option UInt32) : Prop where
  split : names = pre ++ name :: suf
  short : ∀ c ∈ pre ++ [name], c.length < 16
  walk : Walk s n .directory pre (parent.getD 0) .directory
  held : DirHeld s parent found.parentDir last
  path : found.searchedPath = searched ++ (pre ++ [name]).flatMap (slash :: ·)
  absent : HeapOk s → ∀ m t, ¬Names s (parent.getD 0) name m t

theorem ne_no_inode (h : n.toNat < 4096) : n ≠ noInode := by
  rintro rfl
  exact absurd h (by decide)

/-- Where a search that finds nothing ends, whether or not it gets the memory it asks for. -/
theorem search_loop_missing (hc : CacheOk s) (ht : TreeOk s isDir) (fuel : Nat) :
    ∀ (subPath : Option CStr) (name searched : CStr) (d : Ptr) (dir : Option UInt32)
      (parentNo last : UInt32) (cur : Kernel), DirHeld s dir d cur → isDir (dir.getD 0) →
      (∀ c ∈ parsed subPath name, c ≠ []) → (parsed subPath name ≠ [] ∨ last ≠ noInode) →
      wp any (searchLoop 15 16 fuel subPath name searched d parentNo last) cur fun r fin =>
        r.1 = noInode → ∃ pre missing suf parent, MissingAt s (dir.getD 0) (parsed subPath name)
          searched r.2 fin pre missing suf parent := by
  induction fuel with
  | zero => exact fun _ _ _ _ _ _ _ _ _ _ _ _ => trivial
  | succ fuel ih =>
    intro subPath name searched d dir parentNo last cur hheld hdir hnames hlast
    unfold searchLoop
    by_cases hname : name = []
    · have hnil : parsed subPath name = [] := if_pos hname
      have hfound : last ≠ noInode := hlast.resolve_left (not_not_intro hnil)
      simp only [wp_bind, wp_access, if_pos hname, and_any]
      exact fun _ => wp_any_of_forall fun _ _ => wp_any_of_forall fun _ _ h =>
        absurd h hfound
    · have hparsed : parsed subPath name = name :: components (subPath.getD []) := if_neg hname
      rw [hparsed] at hnames ⊢
      have hrest := (List.forall_mem_cons.1 hnames).2
      simp only [wp_bind, wp_access, wp_assert, if_neg hname, and_any]
      intro hlen _ _
      have hshort : name.length < 16 := of_decide_eq_true hlen
      refine wp_mono (search_dir_entry_spec (.inl fun _ => trivial) hheld) ?_
      rintro r mid ⟨hsame, hr⟩
      have hheld' := hheld.then_heap hsame
      cases r with
      | none =>
        intro _
        refine ⟨[], name, _, dir, rfl, by simpa using hshort, .nil _ _, hheld', by simp, ?_⟩
        intro hheap
        have hnone := hr.resolve_right fun h => h.2 hheap
        rw [dir_version_eq ht] at hnone
        exact (lookup_entry_eq_none ht hdir hname).1 hnone.symm
      | some e =>
        have hentry := (hr.resolve_right fun h => Option.some_ne_none _ h.1).symm
        rw [dir_version_eq ht] at hentry
        simp only [wp_ite, wp_bind]
        rcases names_of_lookup ht hdir hname hentry with ⟨htype, hnamed⟩ |
          ⟨htype, hchild, hnamed⟩
        · have hother : e.fType ≠ FileType.directory.code := by
            rw [htype]
            decide
          refine ⟨fun h => absurd h hother, fun _ => ⟨fun _ => ?_, fun h => absurd htype h⟩⟩
          exact wp_any_of_forall fun _ _ h =>
            absurd h (ne_no_inode (names_target ht hdir hnamed).1)
        · refine ⟨fun _ => ?_, fun h => absurd htype h⟩
          refine wp_dir_inode (.inl fun _ => trivial) hheld' fun cnt => ?_
          refine dir_down_spec hc (.inl fun _ => trivial) hheld' fun child next hopen => ?_
          have hfound := ne_no_inode (names_target ht hdir hnamed).1
          rw [← parsed_next subPath] at hrest ⊢
          refine wp_mono (ih _ _ _ child (some e.iNo) _ e.iNo next hopen hchild hrest
            (.inr hfound)) fun r fin hmissing hr => ?_
          obtain ⟨pre, missing, suf, parent, h⟩ := hmissing hr
          refine ⟨name :: pre, missing, suf, parent, congrArg (List.cons name) h.split, ?_,
            .cons hnamed h.walk, h.held, by rw [h.path]; simp, h.absent⟩
          exact List.forall_mem_cons.2 ⟨hshort, h.short⟩

/-- A path that has components and was not found. -/
theorem search_file_missing (hc : CacheOk s) (ht : TreeOk s isDir) :
    wp any (searchFile path) s fun r last => r.1 = noInode → components path ≠ [] →
      path.head? = some slash ∧ path.length < 128 ∧ ∃ pre missing suf parent,
        MissingAt s 0 (components path) [] r.2 last pre missing suf parent := by
  unfold searchFile searchFileIn
  by_cases hpath : components path = []
  · exact wp_any_of_forall fun _ _ _ hne => absurd hpath hne
  by_cases hroot : isRootPath path = true
  · rw [if_pos hroot]
    exact fun h => absurd h (by decide)
  · simp only [hroot, if_false, wp_bind, wp_assert, wp_state, Bool.false_eq_true,
      and_any, decide_eq_true_eq]
    rintro ⟨hhead, _, hlen⟩
    have hloop := search_loop_missing hc ht (path.length + 1) (pathParse path).1 (pathParse path).2
      [] rootDir none 0 (s.junk s.heap.requests) s (.root (SameButHeap.refl s)) ht.root
    rw [parsed_path_parse] at hloop
    exact wp_mono (hloop (components_ne_nil path) (.inl hpath)) fun r last h hr _ =>
      ⟨hhead, hlen, h hr⟩

/-! ## Making the directory -/

namespace Kernel

/-- The inode `n` and the block `i` are taken, and the block holds the entries `.` and `..`. -/
def madeDir (s : Kernel) (n i : Nat) (parentNo : UInt32) : Kernel :=
  ((s.setInodeBit n true).takeBlock i).write (blockAddr s.part.sb i)
    (dotBlock (UInt32.ofNat n) parentNo)

@[simp] theorem madeDir_blocks (s : Kernel) (n i : Nat) (parentNo : UInt32) :
    (s.madeDir n i parentNo).part.blockBitmap = bitmapSet s.part.blockBitmap i true := rfl

end Kernel

/-- The directory cannot take an entry once one more block is in use. -/
def NoPlace (s : Kernel) (inode : INode) : Prop :=
  ¬HasRoom s inode ∧ (s.part.blockBitmap.free = 1 ∨
    s.part.blockBitmap.free = 2 ∧ ∀ k < 12, inode.sector k ≠ 0)

/-- There are an inode and a block for a new directory, and then no place for its entry in the
directory `inode`. -/
def Exhausted (s : Kernel) (inode : INode) : Prop :=
  s.part.inodeBitmap.free ≠ 0 ∧ NoPlace s inode

/-- A block that was free is in use. -/
def Leaked (s last : Kernel) : Prop :=
  ∃ i, bitmapScanTest s.part.blockBitmap i = false ∧
    bitmapScanTest last.part.blockBitmap i = true

section

variable {n : Nat}

/-- The new block was free, so no block that is in use has changed. -/
theorem made_dir_same (ha : Areas s.part) (hi : i < 8 * s.part.blockBitmap.btmpBytesLen)
    (hfree : bitmapScanTest s.part.blockBitmap i = false) :
    SameBlocks s (s.madeDir n i parentNo) := by
  intro lba htaken
  have hne : lba.toNat ≠ (blockAddr s.part.sb i).toNat := by
    obtain ⟨j, hj, rfl, hset, -⟩ := htaken
    rw [block_addr_toNat ha hi, block_addr_toNat ha hj]
    intro heq
    obtain rfl : j = i := by omega
    exact Bool.noConfusion (hset.symm.trans hfree)
  have hlen := ha.blockLen
  show sectorAt (Bytes.blit _ (512 * (blockAddr s.part.sb i).toNat) _ 512) lba.toNat = _
  rw [sectorAt_blit, if_neg hne]
  refine sectorAt_congr fun x hx => ?_
  have hbits := htaken.not_in_block_bits ha hx
  unfold InBlockBits at hbits
  exact Bytes.blit_outside (by simp only [Kernel.setBlockBit_sb, Kernel.setInodeBit]; omega)

theorem has_room_congr (hb : DirBlocks s inode) (hsame : SameBlocks s last) :
    HasRoom last inode ↔ HasRoom s inode := by
  refine exists_congr fun k => and_congr_right fun hk => and_congr_right fun hused => ?_
  have hne := hused k le_rfl
  rw [← blocks_of_lt s.disk inode hk] at hne ⊢
  rw [hsame _ (hb.taken k (by omega) hne)]

/-- Whether the parent can take the entry, said about the state before the block was taken. -/
theorem made_dir_no_place (ha : Areas s.part) (hb : DirBlocks s inode)
    (hscan : bitmapScan s.part.blockBitmap 1 = some i) :
    ¬HasRoom (s.madeDir n i parentNo) inode ∧ CannotGrow (s.madeDir n i parentNo) inode ↔
      NoPlace s inode := by
  obtain ⟨hi, hfree, -⟩ := bitmap_scan_one_eq_some _ hscan
  have hcount := s.part.blockBitmap.free_bitmap_set hscan
  rw [has_room_congr hb (made_dir_same ha hi hfree)]
  refine and_congr_right fun _ => ?_
  unfold CannotGrow
  rw [Kernel.madeDir_blocks]
  exact or_congr (by omega) (and_congr_left fun _ => by omega)

theorem made_dir_ready (hready : DirReady s inode) : DirReady (s.madeDir n i parentNo) inode where
  size := hready.size
  inRange := hready.inRange
  free j hj hclear := by
    refine hready.free j hj ?_
    rw [Kernel.madeDir_blocks, scan_test_bitmap_set] at hclear
    split at hclear
    · exact Bool.noConfusion hclear
    · exact hclear

/-- A `sync_dir_entry` that fails does not give other blocks back. -/
theorem EntrySynced.keeps_bit {p : Ptr} {e : DirEntry} (h : EntrySynced s p inode e false last)
    (hset : bitmapScanTest s.part.blockBitmap i = true) :
    bitmapScanTest last.part.blockBitmap i = true := by
  rcases h.of_failed with ⟨-, rfl⟩ | ⟨i', hscan, rfl⟩
  · exact hset
  · obtain ⟨-, hclear, -⟩ := bitmap_scan_one_eq_some _ hscan
    have hne : i ≠ i' := by
      rintro rfl
      exact Bool.noConfusion (hset.symm.trans hclear)
    simp [scan_test_bitmap_set, hne, hset]

end

section

variable {n : Nat}

theorem DirOk.held (h : DirOk s inode) (hheld : DirHeld s parent d cur) (cnt : Nat) :
    DirOk cur { inode with iOpenCnts := cnt } where
  taken := by rw [hheld.disk_eq, hheld.part_eq]; exact h.taken
  inj := by rw [hheld.disk_eq]; exact h.inj
  table := by rw [hheld.part_eq]; exact h.table
  tableNe := by rw [hheld.disk_eq]; exact h.tableNe
  dead := by rw [hheld.disk_eq]; exact h.dead
  size := by rw [entries, hheld.disk_eq]; exact h.size

theorem mkdir_fail_held (hc : CacheOk s) (hheld : DirHeld s parent d cur) :
    wp ok (mkdirFail d ioBuf) cur fun r last => r = -1 ∧ SameButHeap s last := by
  simp only [mkdirFail, wp_bind]
  refine wp_mono (dir_close_held hc hheld) fun _ mid hsame => ?_
  refine ⟨rfl, hsame.trans ⟨_, ?_, rfl⟩⟩
  exact Nat.le_refl _

/-- `sys_mkdir` from the point on at which the new directory has its inode and its block. It fails
exactly if the parent cannot take the entry, and then the block is not given back. -/
theorem mkdir_enter_spec {newInode : INode} (hc : CacheOk s) (hb : BlocksOk s.part)
    (hroot : RootOpen s) (hdir : DirOk s (dirVersion s parent))
    (hin : 8 * s.part.inodeBitmap.btmpBytesLen ≤ 2 ^ 32) (hheld : DirHeld s parent d cur)
    (hn : n < 8 * s.part.inodeBitmap.btmpBytesLen)
    (hscan : bitmapScan s.part.blockBitmap 1 = some i)
    (hok : (∀ r, ok r) ∨ name.length ≤ 16 ∧ NoPlace s (dirVersion s parent)) :
    wp ok (mkdirEnter name (UInt32.ofNat n) newInode d ioBuf) (cur.madeDir n i parentNo)
      fun r last => NoPlace s (dirVersion s parent) ∧ r = -1 ∧ Leaked s last ∨
        ¬NoPlace s (dirVersion s parent) ∧ r = 0 := by
  obtain ⟨e, cnt, hlookup, hinode⟩ := hheld.memory hroot
  have hpart := hheld.part_eq
  have hokcur := hdir.held hheld cnt
  rw [← hpart] at hb hin hn hscan
  have ha : Areas (cur.madeDir n i parentNo).part := hb.areas.of_bits rfl rfl
  have hplace : ¬HasRoom (cur.madeDir n i parentNo) { dirVersion s parent with iOpenCnts := cnt } ∧
      CannotGrow (cur.madeDir n i parentNo) { dirVersion s parent with iOpenCnts := cnt } ↔
        NoPlace s (dirVersion s parent) := by
    refine (made_dir_no_place hb.areas hokcur.toDirBlocks hscan).trans ?_
    unfold NoPlace HasRoom
    rw [hheld.disk_eq, hheld.part_eq]
    rfl
  have hready : DirReady (cur.madeDir n i parentNo) { dirVersion s parent with iOpenCnts := cnt } :=
    made_dir_ready (hokcur.ready hb)
  unfold mkdirEnter createDirEntry
  simp only [wp_bind, wp_assert, wp_pure, decide_eq_false_iff_not]
  refine ⟨fun _ => ?_, fun hlong => hok.elim (fun hok => hok _) fun h => absurd h.1 hlong⟩
  refine wp_mono (wp_and_any (sync_dir_entry_spec ha (show FileType.directory.code ≠ 0 by decide)
    (.inr ⟨e, _, hlookup, hinode, hready⟩)) (keeps_sync_dir_entry _ _ _)) ?_
  rintro r mid ⟨⟨e', inode', hlookup', hinode', hsynced⟩, hframe⟩
  obtain rfl : e = e' := Option.some.inj (hlookup.symm.trans hlookup')
  obtain rfl := Option.some.inj (hinode.symm.trans hinode')
  have hfailed := hsynced.failed_iff.trans hplace
  cases r with
  | true =>
    have hnot : ¬NoPlace s (dirVersion s parent) := fun h => Bool.noConfusion (hfailed.2 h)
    have hall : ok = any :=
      funext fun r => propext ⟨fun _ => trivial, fun _ => hok.elim (· r) fun h => absurd h.2 hnot⟩
    subst hall
    simp only [if_true, wp_bind]
    refine wp_any_of_forall fun _ _ => wp_any_of_forall fun _ _ =>
      wp_any_of_forall fun _ _ => wp_any_of_forall fun _ _ =>
      wp_any_of_forall fun _ _ => wp_any_of_forall fun _ _ => .inr ⟨hnot, rfl⟩
  | false =>
    have hbits : mid.part.inodeBitmap = bitmapSet cur.part.inodeBitmap n true :=
      congrArg (fun k : Kernel => k.part.inodeBitmap) hframe.rest
    have hmade : HandleFrame cur (cur.madeDir n i parentNo) := ⟨Nat.le_refl _, rfl, fun _ => rfl⟩
    have hclear : HandleFrame mid (mid.setInodeBit n false) := ⟨Nat.le_refl _, rfl, fun _ => rfl⟩
    obtain ⟨-, hfree, -⟩ := bitmap_scan_one_eq_some _ hscan
    have hset : bitmapScanTest mid.part.blockBitmap i = true :=
      hsynced.keeps_bit (by simp [scan_test_bitmap_set])
    rw [if_neg Bool.false_ne_true, wp_bind]
    refine wp_set_inode_bit (by rw [hbits]; exact hn) (by rw [hbits]; exact hin) ?_
    simp only [mkdirFail, wp_bind]
    refine wp_mono (wp_and_any (dir_close_after hc hheld
      ((hmade.trans hframe.handle).trans hclear)) dir_close_frame) ?_
    rintro _ fin ⟨_, _, hfin⟩
    refine .inl ⟨hfailed.1 rfl, rfl, i, by rw [← hpart]; exact hfree, ?_⟩
    show bitmapScanTest fin.part.blockBitmap i = true
    rw [hfin]
    exact hset

/-- `sys_mkdir` from the point on at which the parent directory is known. -/
theorem mkdir_at_spec (hc : CacheOk s) (hb : BlocksOk s.part) (hroot : RootOpen s)
    (hdir : DirOk s (dirVersion s parent)) (hin : 8 * s.part.inodeBitmap.btmpBytesLen ≤ 2 ^ 32)
    (hheld : DirHeld s parent d cur)
    (hok : (∀ r, ok r) ∨ name.length ≤ 16 ∧ Exhausted s (dirVersion s parent)) :
    wp ok (mkdirAt name d ioBuf) cur fun r last =>
      Exhausted s (dirVersion s parent) ∧ r = -1 ∧ Leaked s last ∨
        ¬Exhausted s (dirVersion s parent) ∧ (r = -1 → SameButHeap s last) := by
  have hpart := hheld.part_eq
  have hundone : ∀ inode, ¬Exhausted s inode → wp ok (mkdirFail d ioBuf) cur fun r last =>
      Exhausted s inode ∧ r = -1 ∧ Leaked s last ∨
        ¬Exhausted s inode ∧ (r = -1 → SameButHeap s last) := fun inode hnot =>
    wp_mono (mkdir_fail_held hc hheld) fun r last h => .inr ⟨hnot, fun _ => h.2⟩
  have hb' := hb
  have hin' := hin
  rw [← hpart] at hb' hin'
  unfold mkdirAt
  rw [wp_bind, wp_inode_bitmap_alloc]
  refine ⟨fun hnone => hundone _ fun h => h.1 ?_, fun n hscan => ?_⟩
  · rw [BitMap.free_eq_zero_iff, ← hpart]
    exact hnone
  · obtain ⟨hn, hclear, -⟩ := bitmap_scan_one_eq_some _ hscan
    have hinodes : s.part.inodeBitmap.free ≠ 0 := by
      rw [Ne, BitMap.free_eq_zero_iff, ← hpart, hscan]
      simp
    change wp ok _ (cur.setInodeBit n true) _
    rw [wp_bind, wp_alloc_block]
    constructor
    · intro hnone
      have hblocks : s.part.blockBitmap.free = 0 := by
        rw [BitMap.free_eq_zero_iff, ← hpart]
        exact hnone
      rw [wp_bind]
      refine wp_set_inode_bit hn hin' ?_
      rw [show (cur.setInodeBit n true).setInodeBit n false = cur by
        simp [Kernel.setInodeBit, bitmap_set_undo _ true hclear]]
      refine hundone _ fun h => ?_
      have := h.2.2
      omega
    · intro i hscan'
      obtain ⟨hi, hfree, -⟩ := bitmap_scan_one_eq_some _ hscan'
      have ha : Areas ((cur.setInodeBit n true).setBlockBit i true).part :=
        hb'.areas.of_bits rfl rfl
      have hpos : UInt32.ofNat i ≠ 0 := by
        intro hzero
        have hidx := bitmap_index_toNat hb'.areas hi
        rw [hzero] at hidx
        obtain rfl : i = 0 := hidx.symm
        exact Bool.noConfusion (hfree.symm.trans hb'.root)
      obtain ⟨e, cnt, hlookup, hinode⟩ := hheld.memory hroot
      simp only [wp_bind, wp_state, Kernel.setBlockBit_sb, block_addr_sub, hpos, ne_eq]
      refine wp_sync_block ha hi ?_
      simp only [dirInode, wp_bind, wp_deref_dir, wp_deref_inode]
      refine ⟨fun e' he' => ?_, fun hnone => absurd (hlookup.symm.trans hnone) (by simp)⟩
      obtain rfl : e = e' := Option.some.inj (hlookup.symm.trans he')
      refine ⟨fun inode' _ => ?_, fun hnone => absurd (hinode.symm.trans hnone) (by simp)⟩
      refine wp_write_sector (.inr (hb'.inRange i hi hfree)) ?_
      rw [hpart] at hn
      have hscan' : bitmapScan s.part.blockBitmap 1 = some i := by
        rw [← hpart]
        exact hscan'
      refine wp_mono (mkdir_enter_spec hc hb hroot hdir hin hheld hn hscan'
        (hok.imp_right fun h => ⟨h.1, h.2.2⟩)) fun r last h => ?_
      refine h.imp (fun h => ⟨⟨hinodes, h.1⟩, h.2⟩) ?_
      rintro ⟨hplace, hr⟩
      exact ⟨fun h => hplace h.2, fun hfail => absurd (hr.symm.trans hfail) (by decide)⟩

end

/-! ## The whole call -/

/-- The path is one that `sys_mkdir` accepts for a new directory `name` in the directory `m`, and
`m` has no place for the entry. -/
def FullParent (s : Kernel) (path name : CStr) (m : UInt32) : Prop :=
  path.head? = some slash ∧ path.length < 128 ∧ (∀ c ∈ components path, c.length < 16) ∧
    (∃ names, components path = names ++ [name] ∧ Walk s 0 .directory names m .directory) ∧
    Exhausted s (inodeVersion s m)

/-- The bitmaps, the disk and the directory tree are those of `s`. -/
structure RolledBack (s last : Kernel) : Prop where
  blocks : last.part.blockBitmap = s.part.blockBitmap
  inodes : last.part.inodeBitmap = s.part.inodeBitmap
  disk : last.disk = s.disk
  tree : ∀ n name m t, Names last n name m t ↔ Names s n name m t

/-- What is expected of a `sys_mkdir` that fails. -/
def MkdirRollsBack (s : Kernel) (path : CStr) : Prop :=
  ∀ last, sysMkdir path s = .done (-1) last → RolledBack s last

theorem SameButHeap.rolled_back (h : SameButHeap s last) : RolledBack s last := by
  obtain ⟨heap, -, rfl⟩ := h
  exact ⟨rfl, rfl, rfl, fun _ _ _ _ => Iff.rfl⟩

theorem Leaked.not_rolled_back (h : Leaked s last) : ¬RolledBack s last := by
  intro hback
  obtain ⟨i, hfree, hset⟩ := h
  rw [hback.blocks] at hset
  exact Bool.noConfusion (hset.symm.trans hfree)

theorem tree_ok_heap (ht : TreeOk s isDir) (heap : Heap) :
    TreeOk { s with heap := heap } isDir :=
  ⟨ht.root, ht.rootHandle, ht.number, ht.readable, ht.cleared, ht.typed, ht.unique, ht.dot,
    ht.dotdot, ht.rootDotdot⟩

theorem FsOk.served (h : FsOk s isDir) : FsOk { s with heap := s.heap.served } isDir where
  cache := h.cache.same_but_heap ⟨_, Nat.le_succ _, rfl⟩
  tree := tree_ok_heap h.tree _
  blocks := h.blocks
  dirs n hn := { h.dirs n hn with }
  inodeBits := h.inodeBits

theorem MissingAt.components_eq {suf : List CStr} {found : PathSearchRecord} {pre : List CStr}
    (h : MissingAt s n names [] found last pre name suf parent) (hnames : ∀ c ∈ names, IsName c) :
    components found.searchedPath = pre ++ [name] := by
  have hpath : found.searchedPath = absPath (pre ++ [name]) := by
    rw [h.path, abs_path_append]
    simp
  rw [hpath]
  refine components_abs_path fun c hc => hnames c ?_
  rw [h.split]
  rcases List.mem_append.1 hc with hpre | hname
  · exact List.mem_append_left _ hpre
  · exact List.mem_append_right _ (List.mem_singleton.1 hname ▸ List.mem_cons_self)

/-- A failed `sys_mkdir` that is not rolled back was asked for a directory in a full parent, whether
or not it got the memory it asked for. -/
theorem sys_mkdir_kept (h : FsOk s isDir) :
    wp any (sysMkdir path) s fun r last => r = -1 → SameButHeap s last ∨
      ∃ name m, FullParent s path name m ∧ (HeapOk s → ∀ k t, ¬Names s m name k t) := by
  unfold sysMkdir
  rw [wp_bind, wp_sys_malloc]
  refine ⟨fun _ => ?_, fun _ => ?_⟩
  · have hserved : SameButHeap s { s with heap := s.heap.served } := ⟨_, Nat.le_succ _, rfl⟩
    have h1 := h.served
    refine wp_seq (wp_and (search_file_held h1.cache) (search_file_missing h1.cache h1.tree)) ?_
    rintro ⟨inodeNo, found⟩ cur ⟨⟨dir, hheld⟩, hmissing⟩
    have hfail : ∀ ioBuf, wp any (mkdirFail found.parentDir ioBuf) cur fun r last =>
        r = -1 → SameButHeap s last ∨
          ∃ name m, FullParent s path name m ∧ (HeapOk s → ∀ k t, ¬Names s m name k t) :=
      fun ioBuf => wp_mono (mkdir_fail_held h1.cache hheld) fun r last hlast _ =>
        .inl (hserved.trans hlast.2)
    simp only [wp_ite, wp_bind]
    refine ⟨fun _ => hfail _, fun hno => ?_⟩
    refine wp_mono (path_depth_cnt_total (.inl fun _ => trivial)) ?_
    rintro depth mid ⟨hmid, hdepth, hne⟩
    refine wp_mono (path_depth_cnt_total (.inl fun _ => trivial)) ?_
    rintro depth' mid' ⟨hmid', hdepth', _⟩
    subst hmid
    subst hmid'
    refine ⟨fun _ => hfail _, fun hsame => ?_⟩
    obtain ⟨hhead, hlen, pre, name, suf, parent, hat⟩ := hmissing (not_not.1 hno) hne
    have hcomps := hat.components_eq (components_are_names path)
    obtain rfl : suf = [] := by
      have hcount := not_not.1 hsame
      rw [hdepth, hdepth', hcomps, hat.split] at hcount
      refine List.eq_nil_of_length_eq_zero ?_
      simp only [List.length_append, List.length_cons, List.length_nil] at hcount
      omega
    have hparent := walk_is_dir h1.tree h1.tree.root hat.walk
    have hver := dir_version_eq h1.tree parent
    refine wp_mono (mkdir_at_spec h1.cache h1.blocks h1.root_open
      (by rw [hver]; exact h1.dirs _ hparent) h1.inodeBits hat.held (.inl fun _ => trivial)) ?_
    intro r last hcases hr
    rcases hcases with ⟨hfull, -, -⟩ | ⟨-, hlast⟩
    · refine .inr ⟨name, parent.getD 0, ⟨hhead, hlen, ?_, ⟨pre, hat.split, ?_⟩, ?_⟩, hat.absent⟩
      · rw [hat.split]
        exact hat.short
      · exact hat.walk.of_names fun _ _ _ _ hentry => hentry
      · rw [hver] at hfull
        exact hfull
    · exact .inl (hserved.trans (hlast hr))
  · exact fun _ => .inl ⟨_, Nat.le_succ _, rfl⟩

theorem lookup_new_name (ht : TreeOk s isDir) (hsplit : components path = names ++ [name])
    (hwalk : Walk s 0 .directory names m .directory) (habsent : ∀ k t, ¬Names s m name k t) :
    (lookup s path).inodeNo = noInode ∧ (lookup s path).parent.getD 0 = m ∧
      (lookup s path).searchedPath = absPath (names ++ [name]) := by
  -- the paths that are not searched are the root, and names that the root has
  have hdots : ∀ c, components path = [c] → ¬Names s 0 c 0 .directory := by
    intro c hc hnamed
    obtain ⟨rfl, hname⟩ := List.append_inj' ((List.nil_append [c]).trans (hc.symm.trans hsplit)) rfl
    cases hwalk
    cases hname
    exact habsent 0 .directory hnamed
  have hroot : ¬isRootPath path = true := by
    intro hroot
    simp only [isRootPath, Bool.or_eq_true, beq_iff_eq] at hroot
    rcases hroot with (rfl | rfl) | rfl
    · exact absurd (congrArg List.length hsplit) (by simp [components, splitSlash])
    · exact hdots dotName (by decide) (ht.dot 0 ht.root)
    · exact hdots dotdotName (by decide) ht.rootDotdot
  have hne := components_ne_nil path
  rw [hsplit] at hne
  unfold lookup
  rw [if_neg hroot, hsplit, abs_path_append]
  obtain ⟨hpre, hlast⟩ := List.forall_mem_append.1 hne
  obtain ⟨hmissing, hparent, hpath⟩ := lookup_from_new ht (hlast name List.mem_cons_self) names []
    none 0 (s.junk s.heap.requests) m ht.root hpre hwalk habsent
  exact ⟨hmissing, hparent, by rw [hpath]; simp⟩

/-- A `sys_mkdir` in a full parent fails and keeps the block. -/
theorem sys_mkdir_leaks (h : FsOk s isDir) (hheap : HeapOk s) (hfull : FullParent s path name m)
    (habsent : ∀ k t, ¬Names s m name k t) :
    wp never (sysMkdir path) s fun r last => r = -1 ∧ Leaked s last := by
  obtain ⟨hhead, hlen, hshort, ⟨names, hsplit, hwalk⟩, hexhausted⟩ := hfull
  have h1 := h.served
  have hwalk1 : Walk { s with heap := s.heap.served } 0 .directory names m .directory :=
    hwalk.of_names fun _ _ _ _ hentry => hentry
  obtain ⟨hno, hparent, hpath⟩ := lookup_new_name h1.tree hsplit hwalk1 habsent
  have hnames := components_are_names path
  rw [hsplit] at hnames
  have hcomps := components_abs_path hnames
  have hver := dir_version_eq h1.tree (lookup { s with heap := s.heap.served } path).parent
  rw [hparent] at hver
  unfold sysMkdir
  rw [wp_bind, wp_sys_malloc]
  refine ⟨fun _ => ?_, fun hrefused => absurd ((hheap _ _).symm.trans hrefused) (by simp)⟩
  refine wp_seq (search_file_spec h1.cache (.inr ⟨tree_search_safe h1.tree hheap
    h1.blocks.areas.table, h1.tree.root, hhead, hlen, hshort⟩)) ?_
  rintro ⟨inodeNo, found⟩ cur hsearched
  have hfound := hsearched.resolve_right fun hrefused => hrefused.1 hheap
  have hinode : inodeNo = noInode := hfound.inodeNo.trans hno
  have hsearch : found.searchedPath = absPath (names ++ [name]) := hfound.searchedPath.trans hpath
  simp only [hinode, ne_eq, not_true_eq_false, if_false, wp_bind]
  refine wp_mono (path_depth_cnt_total (.inr ⟨hhead, by simp [hsplit], hshort⟩)) ?_
  rintro depth mid ⟨hmid, hdepth, _⟩
  rw [hsearch]
  refine wp_mono (path_depth_cnt_total (.inr ⟨head_abs_path _, by simp [hcomps], ?_⟩)) ?_
  · rw [hcomps, ← hsplit]
    exact hshort
  rintro depth' mid' ⟨hmid', hdepth', _⟩
  have hsame : depth = depth' := by rw [hdepth, hdepth', hcomps, hsplit]
  subst hmid
  subst hmid'
  rw [if_neg (not_not_intro hsame), abs_path_append, base_name_append _ (hnames name (by simp)).2]
  have hlast : name.length < 16 := hshort name (by rw [hsplit]; simp)
  refine wp_mono (mkdir_at_spec h1.cache h1.blocks h1.root_open ?_ h1.inodeBits hfound.held
    (.inr ⟨Nat.le_of_lt hlast, by rw [hver]; exact hexhausted⟩)) ?_
  · rw [hver]
    exact h1.dirs m (walk_is_dir h1.tree h1.tree.root hwalk1)
  · intro r last hcases
    rcases hcases with ⟨-, hr, hleak⟩ | ⟨hnot, -⟩
    · exact ⟨hr, hleak⟩
    · rw [hver] at hnot
      exact absurd hexhausted hnot

/-- A new directory is asked for in a parent that has no place for it. -/
def Stranded (s : Kernel) (path : CStr) : Prop :=
  ∃ name m, FullParent s path name m ∧ ∀ k t, ¬Names s m name k t

/-- A `sys_mkdir` that fails rolls back, unless it was asked for a directory in a full parent. The
first part holds for every behaviour of the heap: a call that gets no buffer rolls back, and so does
one whose parent directory is not full. The second part is exact, and needs memory. -/
theorem mkdir_rolls_back_iff {s : Kernel} {isDir : UInt32 → Prop} {path : CStr} (h : FsOk s isDir) :
    (s.grant s.heap.requests 1024 = false ∨ (¬∃ name m, FullParent s path name m) →
      MkdirRollsBack s path) ∧
    (HeapOk s → (MkdirRollsBack s path ↔ ¬Stranded s path)) := by
  have hspec : wp any (sysMkdir path) s _ := sys_mkdir_kept h
  have hkept := wp_any_iff.1 hspec
  refine ⟨fun hcond last hrun => ?_, fun hheap => ⟨fun hback hstranded => ?_, ?_⟩⟩
  · rcases hcond with hrefused | hroom
    · have hsame : wp any (sysMkdir path) s fun _ last => SameButHeap s last := by
        unfold sysMkdir
        rw [wp_bind, wp_sys_malloc]
        refine ⟨fun hserved => absurd (hserved.symm.trans hrefused) (by simp), fun _ => ?_⟩
        exact ⟨_, Nat.le_succ _, rfl⟩
      exact (wp_any_iff.1 hsame _ _ hrun).rolled_back
    · rcases hkept _ _ hrun rfl with hsame | ⟨name, m, hfull, -⟩
      · exact hsame.rolled_back
      · exact absurd ⟨name, m, hfull⟩ hroom
  · obtain ⟨name, m, hfull, habsent⟩ := hstranded
    obtain ⟨r, last, hrun, rfl, hleak⟩ := wp_never_iff.1
      (sys_mkdir_leaks h hheap hfull habsent)
    exact hleak.not_rolled_back (hback last hrun)
  · intro hnot last hrun
    rcases hkept _ _ hrun rfl with hsame | ⟨name, m, hfull, habsent⟩
    · exact hsame.rolled_back
    · exact absurd ⟨name, m, hfull, habsent hheap⟩ hnot

/-- A root directory whose block has no free slot: the entries `.` and `..`, and 19 files. -/
def fullRootBlock : Bytes := fun i =>
  let idx := i / 24
  if 21 ≤ idx then 0
  else if i % 24 = 0 then if idx < 2 then 46 else 97 + UInt8.ofNat idx
  else if i % 24 = 1 then if idx = 1 then 46 else 0
  else if i % 24 = 16 then if idx < 2 then 0 else UInt8.ofNat idx
  else if i % 24 = 20 then if idx < 2 then 2 else 1
  else 0

/-- A partition on which only block 7 is free, with a full root directory. -/
def fullRoot : Kernel := rootOnly (bitsPartition 0x7f 0xff) 675 504 fun i =>
  if i / 512 = 675 then fullRootBlock (i % 512) else 0

theorem full_root_ok : FsOk fullRoot (· = 0) where
  cache := root_only_cache
  tree := by
    refine root_only_tree rfl (by decide) (by decide) ⟨?_, ?_, ?_, ?_⟩
    · decide +kernel
    · decide +kernel
    · decide +kernel
    · decide +kernel
  blocks := bits_partition_blocks_ok 0xff (by decide)
  dirs n hn := by
    rw [hn]
    have hlive : ∀ j < 21, (DirEntry.ofBlock (sectorAt fullRoot.disk 675) j).live = true := by
      decide +kernel
    refine root_only_dir_ok (by decide) ⟨0, by decide, by decide, by decide, by decide⟩ ?_
      (by decide +kernel)
    exact fun j hj hdead => Bool.noConfusion ((hlive j hj).symm.trans hdead)
  inodeBits := by decide

/-- In a full root directory, a name that is there is refused without a trace. -/
theorem mkdir_of_a_file_rolls_back : (∃ last, sysMkdir [slash, 99] fullRoot = .done (-1) last) ∧
      MkdirRollsBack fullRoot [slash, 99] := by
  obtain ⟨r, last, hdone, rfl⟩ :
      ∃ r last, sysMkdir [slash, 99] fullRoot = .done r last ∧ r = -1 :=
    wp_never_iff.1 (by decide +kernel)
  refine ⟨⟨last, hdone⟩, ((mkdir_rolls_back_iff full_root_ok).2 fun _ _ => rfl).2 ?_⟩
  intro ⟨name, m, ⟨_, _, _, ⟨names, hsplit, hwalk⟩, _⟩, habsent⟩
  have hcomps : components [slash, 99] = [] ++ [[99]] := by decide
  obtain ⟨rfl, hname⟩ := List.append_inj' (hcomps.symm.trans hsplit) rfl
  cases hname
  cases hwalk
  exact habsent 2 .regular
    (root_only_names rfl (by decide) (show 2 < 21 by decide) (by decide +kernel) rfl
      (by decide +kernel))

/-- The last free block is taken for a directory in a full root directory: the call fails, and the
bit of the block stays set, in memory and on the disk. -/
theorem mkdir_keeps_the_block : ∃ last, sysMkdir [slash, 122] fullRoot = .done (-1) last ∧
      bitmapScanTest fullRoot.part.blockBitmap 7 = false ∧
      bitmapScanTest last.part.blockBitmap 7 = true ∧
      (fullRoot.disk (512 * 65)).toBitVec.getLsbD 7 = false ∧
      (last.disk (512 * 65)).toBitVec.getLsbD 7 = true := by
  obtain ⟨r, last, hdone, rfl, hbit, hdisk⟩ :
      ∃ r last, sysMkdir [slash, 122] fullRoot = .done r last ∧ r = -1 ∧
        bitmapScanTest last.part.blockBitmap 7 = true ∧
        (last.disk (512 * 65)).toBitVec.getLsbD 7 = true := wp_never_iff.1 (by decide +kernel)
  exact ⟨last, hdone, by decide, hbit, by decide +kernel, hdisk⟩

end LosKernel
