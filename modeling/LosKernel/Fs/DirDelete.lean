import LosKernel.Fs.DirContents
import LosKernel.Fs.FileAppend

/-!
# Deleting a directory entry

`delete_dir_entry` gives the block of the entry back if it holds no other one. This is right for
the direct blocks after the first. For a block of the indirect table the loop that counts the
blocks of the table does not end, and a block whose only other entry is `..` is given back with
that entry.
-/

namespace LosKernel

open Prog

variable {idx count j k i : Nat} {scan scan' r : BlockScan} {ok : Stop → Prop} {s last : Kernel}
  {b : Bytes} {n : UInt32} {d p : Ptr} {inode : INode}
open DirEntry (ofBlock)

/-! ## Scanning a block -/

/-- The slot holds the entry `.`. -/
def isDot (b : Bytes) (j : Nat) : Bool := (ofBlock b j).live && slotName b j == dotName

/-- The slot holds the entry `..`. -/
def isDotdot (b : Bytes) (j : Nat) : Bool :=
  (ofBlock b j).live && slotName b j == dotdotName

/-- The slot holds an entry other than `.` and `..`. -/
def isCounted (b : Bytes) (j : Nat) : Bool :=
  (ofBlock b j).live && slotName b j != dotName && slotName b j != dotdotName

/-- The slot holds an entry other than `.` and `..` for inode `n`. -/
def isMatch (b : Bytes) (n : UInt32) (j : Nat) : Bool :=
  isCounted b j && (ofBlock b j).iNo == n

/-- What the inner loop of `delete_dir_entry` has collected about `count` slots from `idx` on, if it
had collected `scan` before. -/
structure Scanned (b : Bytes) (n : UInt32) (idx count : Nat) (scan r : BlockScan) : Prop where
  first : r.isDirFirstBlock = (scan.isDirFirstBlock || (List.range' idx count).any (isDot b))
  cnt : r.dirEntryCnt = scan.dirEntryCnt + (List.range' idx count).countP (isCounted b)
  found : ∀ j, r.dirEntryFound = some j ↔
    scan.dirEntryFound = some j ∨ idx ≤ j ∧ j < idx + count ∧ isMatch b n j = true

/-- No two of the slots hold an entry for inode `n`, and none has been found before if one does. -/
def OneMatch (b : Bytes) (n : UInt32) (idx count : Nat) (scan : BlockScan) : Prop :=
  ∀ j, idx ≤ j → j < idx + count → isMatch b n j = true → scan.dirEntryFound = none ∧
    ∀ j', idx ≤ j' → j' < idx + count → isMatch b n j' = true → j' = j

/-- What an iteration of the inner loop collects about slot `idx`. -/
structure SlotScanned (b : Bytes) (n : UInt32) (idx : Nat) (scan scan' : BlockScan) : Prop where
  first : scan'.isDirFirstBlock = (scan.isDirFirstBlock || isDot b idx)
  cnt : scan'.dirEntryCnt = scan.dirEntryCnt + if isCounted b idx then 1 else 0
  found : scan'.dirEntryFound = if isMatch b n idx then some idx else scan.dirEntryFound

theorem SlotScanned.one_match (h : SlotScanned b n idx scan scan')
    (honly : OneMatch b n idx (count + 1) scan) :
    OneMatch b n (idx + 1) count scan' := by
  intro j hle hlt hmatch
  obtain ⟨hnone, hunique⟩ := honly j (by omega) (by omega) hmatch
  refine ⟨?_, fun j' hle' hlt' => hunique j' (by omega) (by omega)⟩
  rw [h.found, if_neg, hnone]
  intro hidx
  have := hunique idx le_rfl (by omega) hidx
  omega

theorem SlotScanned.cons (h : SlotScanned b n idx scan scan')
    (honly : OneMatch b n idx (count + 1) scan) (hr : Scanned b n (idx + 1) count scan' r) :
    Scanned b n idx (count + 1) scan r := by
  refine ⟨?_, ?_, fun j => ?_⟩
  · rw [hr.first, h.first, List.range'_succ, List.any_cons, Bool.or_assoc]
  · rw [hr.cnt, h.cnt, List.range'_succ, List.countP_cons]
    omega
  · rw [hr.found j, h.found]
    by_cases hidx : isMatch b n idx = true
    · obtain ⟨hnone, hunique⟩ := honly idx le_rfl (by omega) hidx
      rw [if_pos hidx, hnone]
      constructor
      · rintro (hj | ⟨hle, hlt, hmatch⟩)
        · obtain rfl := Option.some.inj hj
          exact .inr ⟨Nat.le_refl _, by omega, hidx⟩
        · exact .inr ⟨by omega, by omega, hmatch⟩
      · rintro (hj | ⟨hle, hlt, hmatch⟩)
        · exact absurd hj (by simp)
        · exact .inl (congrArg some (hunique j hle hlt hmatch).symm)
    · rw [if_neg hidx]
      refine or_congr_right ⟨fun h => ⟨by omega, by omega, h.2.2⟩, ?_⟩
      intro ⟨hle, hlt, hmatch⟩
      rcases Nat.eq_or_lt_of_le hle with rfl | hgt
      · exact absurd hmatch hidx
      · exact ⟨hgt, by omega, hmatch⟩

/-- The inner loop of `delete_dir_entry`. -/
theorem wp_scan_block (count : Nat) : ∀ idx scan, OneMatch b n idx count scan →
    wp ok (scanBlock b n count idx scan) s fun r last =>
      last = s ∧ Scanned b n idx count scan r := by
  induction count with
  | zero =>
    intro idx scan _
    exact ⟨rfl, by simp, by simp, fun j => ⟨.inl, fun h => h.elim id fun h => by omega⟩⟩
  | succ count ih =>
    intro idx scan honly
    have hstep : ∀ scan', SlotScanned b n idx scan scan' →
        wp ok (scanBlock b n count (idx + 1) scan') s fun r last =>
          last = s ∧ Scanned b n idx (count + 1) scan r := fun scan' hslot =>
      wp_mono (ih (idx + 1) scan' (hslot.one_match honly)) fun _ _ hr =>
        ⟨hr.1, hslot.cons honly hr.2⟩
    unfold scanBlock
    by_cases hlive : (ofBlock b idx).live = true
    · by_cases hdot : cstrAt b (24 * idx) (512 - 24 * idx) = dotName
      · have hname : isDot b idx = true ∧ isCounted b idx = false := by
          simp [isDot, isCounted, slotName, hlive, hdot]
        simp only [hlive, hdot]
        exact hstep _ ⟨by simp [hname], by simp [hname], by simp [isMatch, hname]⟩
      · by_cases hdotdot : cstrAt b (24 * idx) (512 - 24 * idx) = dotdotName
        · have hname : isDot b idx = false ∧ isCounted b idx = false := by
            simp [isDot, isCounted, slotName, hdotdot, dotName, dotdotName]
          simp only [hlive, hdotdot]
          exact hstep _ ⟨by simp [hname], by simp [hname], by simp [isMatch, hname]⟩
        · have hname : isDot b idx = false ∧ isCounted b idx = true := by
            simp [isDot, isCounted, slotName, hlive, hdot, hdotdot]
          simp only [hlive, hdot, hdotdot, ne_eq]
          by_cases hno : (ofBlock b idx).iNo = n
          · have hmatch : isMatch b n idx = true := by simp [isMatch, hname, hno]
            obtain ⟨hnone, -⟩ := honly idx le_rfl (by omega) hmatch
            simp only [hno, hnone]
            exact hstep _ ⟨by simp [hname], by simp [hname], by simp [hmatch]⟩
          · simp only [hno]
            exact hstep _ ⟨by simp [hname], by simp [hname], by simp [isMatch, hno]⟩
    · have hname : isDot b idx = false ∧ isCounted b idx = false := by
        simp [isDot, isCounted, hlive]
      simp only [hlive]
      exact hstep _ ⟨by simp [hname], by simp [hname], by simp [isMatch, hname]⟩

/-! ## Giving back a block -/

/-- Apart from slot `j`, the block holds nothing but `..`. -/
def OnlyDotdot (b : Bytes) (j : Nat) : Prop :=
  ∀ j' < 21, j' ≠ j → (ofBlock b j').live = true → isDotdot b j' = true

/-- The block holds no live entry but that of slot `j`. -/
def Lone (b : Bytes) (j : Nat) : Prop :=
  ∀ j' < 21, j' ≠ j → (ofBlock b j').live = false

theorem isMatch_counted (h : isMatch b n j = true) : isCounted b j = true := by
  simp only [isMatch, Bool.and_eq_true] at h
  exact h.1

theorem isCounted_live (h : isCounted b j = true) : (ofBlock b j).live = true := by
  simp only [isCounted, Bool.and_eq_true] at h
  exact h.1.1

/-- A live slot holds `.`, `..` or an entry that counts. -/
theorem slot_cases (h : (ofBlock b j).live = true) :
    isDot b j = true ∨ isDotdot b j = true ∨ isCounted b j = true := by
  by_cases hdot : slotName b j = dotName
  · simp [isDot, h, hdot]
  · by_cases hdotdot : slotName b j = dotdotName
    · simp [isDotdot, h, hdotdot]
    · simp [isCounted, h, hdot, hdotdot]

theorem isDotdot_not_dot (h : isDotdot b j = true) : isDot b j = false := by
  simp only [isDotdot, Bool.and_eq_true, beq_iff_eq] at h
  simp [isDot, h.2, dotName, dotdotName]

theorem isCounted_not_dot (h : isCounted b j = true) : isDot b j = false ∧
    isDotdot b j = false := by
  simp only [isCounted, Bool.and_eq_true, bne_iff_ne] at h
  simp [isDot, isDotdot, h.1.2, h.2]

/-- One element of a list satisfies the predicate exactly when the count is 1. -/
theorem countP_eq_one_iff {p : Nat → Bool} {l : List Nat} (hl : l.Nodup) (hj : j ∈ l)
    (hp : p j = true) : l.countP p = 1 ↔ ∀ j' ∈ l, p j' = true → j' = j := by
  have hmem : j ∈ l.filter p := List.mem_filter.2 ⟨hj, hp⟩
  rw [List.countP_eq_length_filter, List.length_eq_one_iff]
  constructor
  · intro ⟨a, ha⟩ j' hj' hp'
    have h1 : j' ∈ l.filter p := List.mem_filter.2 ⟨hj', hp'⟩
    rw [ha, List.mem_singleton] at h1 hmem
    rw [h1, hmem]
  · intro hall
    have hsub : ∀ a ∈ l.filter p, a = j := by
      intro a ha
      obtain ⟨hal, hpa⟩ := List.mem_filter.1 ha
      exact hall a hal hpa
    refine ⟨j, ?_⟩
    have hnodup : (l.filter p).Nodup := hl.filter p
    generalize l.filter p = m at hmem hsub hnodup
    rcases m with _ | ⟨a, _ | ⟨c, m⟩⟩
    · exact absurd hmem (by simp)
    · rw [hsub a (by simp)]
    · simp_all

/-- The block is given back exactly when it holds nothing but `..` besides the entry. -/
theorem Scanned.only_dotdot_iff (h : Scanned b n 0 21 ⟨false, 0, none⟩ r) (hj : j < 21)
    (hcounted : isCounted b j = true) :
    r.dirEntryCnt = 1 ∧ r.isDirFirstBlock = false ↔ OnlyDotdot b j := by
  have hmem : ∀ k, k ∈ List.range' 0 21 ↔ k < 21 := by simp [List.mem_range']
  rw [h.first, h.cnt, Nat.zero_add, Bool.false_or,
    countP_eq_one_iff List.nodup_range' ((hmem j).2 hj) hcounted, List.any_eq_false]
  constructor
  · intro ⟨hone, hnodot⟩ j' hj' hne hlive
    rcases slot_cases hlive with hdot | hdotdot | hcount
    · exact absurd hdot (hnodot j' ((hmem j').2 hj'))
    · exact hdotdot
    · exact absurd (hone j' ((hmem j').2 hj') hcount) hne
  · intro honly
    refine ⟨fun j' hj' hcount => ?_, fun j' hj' hdot => ?_⟩
    · by_contra hne
      have hdotdot := honly j' ((hmem j').1 hj') hne (isCounted_live hcount)
      rw [(isCounted_not_dot hcount).2] at hdotdot
      exact Bool.noConfusion hdotdot
    · by_cases heq : j' = j
      · rw [heq, (isCounted_not_dot hcounted).1] at hdot
        exact Bool.noConfusion hdot
      · have hlive : (ofBlock b j').live = true := by
          simp only [isDot, Bool.and_eq_true] at hdot
          exact hdot.1
        rw [isDotdot_not_dot (honly j' ((hmem j').1 hj') heq hlive)] at hdot
        exact Bool.noConfusion hdot

theorem Lone.only_dotdot (h : Lone b j) : OnlyDotdot b j := by
  intro j' hj' hne hlive
  rw [h j' hj' hne] at hlive
  exact Bool.noConfusion hlive

theorem lone_iff (hj : j < 21) (hlive : (ofBlock b j).live = true) :
    Lone b j ↔ blockEntries b = {ofBlock b j} := by
  rw [blockEntries_clear hj hlive, ← Multiset.cons_zero, Multiset.cons_inj_right, blockEntries,
    bag_eq_zero_iff]
  refine forall₂_congr fun j' hj' => ?_
  by_cases heq : j' = j
  · subst heq
    exact iff_of_true (fun h => absurd rfl h) (slotEntry_dead (of_block_cleared b j'))
  · rw [slotEntry_congr (of_block_blit_ne b _ heq), slotEntry]
    simp [heq]

/-! ## What `delete_dir_entry` does -/

/-- The contents of block `k` of a directory. -/
def dirPage (disk : Bytes) (inode : INode) (k : Nat) : Bytes :=
  sectorAt disk (blocksOf disk inode k).toNat

/-- The only entry for inode `n` other than `.` and `..` is in slot `j` of block `k`. -/
structure Located (disk : Bytes) (inode : INode) (n : UInt32) (k j : Nat) : Prop where
  block : k < 140
  used : blocksOf disk inode k ≠ 0
  slot : j < 21
  here : isMatch (dirPage disk inode k) n j = true
  only : ∀ k' < 140, blocksOf disk inode k' ≠ 0 → ∀ j' < 21,
    isMatch (dirPage disk inode k') n j' = true → k' = k ∧ j' = j

/-- A block is marked as free, in memory and on the disk. -/
def Kernel.dropBlock (s : Kernel) (i : Nat) : Kernel :=
  (s.setBlockBit i false).syncBlockBits (i / 4096)

/-- The state after an inode was changed and stored. -/
def Kernel.storeDir (s : Kernel) (p : Ptr) (inode : INode) : Kernel :=
  storeRecord (s.setInode p inode) (inode.iNo.toNat % 256) inode.stored.bytes

/-- `delete_dir_entry` removed the entry in slot `j` of block `k`: it gave the block back, or it
cleared the slot. -/
inductive Deleted (s : Kernel) (p : Ptr) (inode : INode) (k j : Nat) (last : Kernel) : Prop where
  | freed (i : Nat) (hi : i < 8 * s.part.blockBitmap.btmpBytesLen) (hk : k < 12)
      (honly : OnlyDotdot (dirPage s.disk inode k) j)
      (haddr : inode.sector k = blockAddr s.part.sb i)
      (hlast : last = (s.dropBlock i).storeDir p
        { inode.setSector k 0 with iSize := inode.iSize - 24 })
  | cleared (hnot : ¬OnlyDotdot (dirPage s.disk inode k) j)
      (hlast : last =
      (s.write (blocksOf s.disk inode k) (Bytes.blit (dirPage s.disk inode k) (24 * j)
        (fun _ => 0) dirEntrySize)).storeDir p { inode with iSize := inode.iSize - 24 })

theorem Located.live (h : Located s.disk inode n k j) :
    (ofBlock (dirPage s.disk inode k) j).live = true :=
  isCounted_live (isMatch_counted h.here)

/-- The outer loop of `delete_dir_entry` gets to the block of the entry. -/
theorem wp_delete_blocks {Q : Bool → Kernel → Prop} (ha : Areas s.part) (hb : DirBlocks s inode)
    (hloc : Located s.disk inode n k j)
    (hQ : ∀ r, Scanned (dirPage s.disk inode k) n 0 21 ⟨false, 0, none⟩ r →
      wp ok (deleteFound p k (blocksOf s.disk inode k) (dirPage s.disk inode k) r j) s
        fun _ last => Q true last) (count : Nat) :
    ∀ idx, idx ≤ k → k < idx + count → idx + count ≤ 140 →
      wp ok (deleteBlocks p n (blocksOf s.disk inode) count idx) s Q := by
  induction count with
  | zero => omega
  | succ count ih =>
    intro idx hle hlt hmax
    have hnext : idx ≠ k → wp ok (deleteBlocks p n (blocksOf s.disk inode) count (idx + 1)) s
        Q := fun hne => ih (idx + 1) (by omega) (by omega) (by omega)
    unfold deleteBlocks
    by_cases hzero : blocksOf s.disk inode idx = 0
    · rw [if_pos hzero]
      refine hnext ?_
      rintro rfl
      exact hloc.used hzero
    · rw [if_neg hzero]
      simp only [wp_bind]
      refine wp_read_sector (.inr (hb.taken idx (by omega) hzero).in_range) ?_
      rw [dir_entrys_per_sec_eq ha]
      refine wp_mono (wp_scan_block 21 0 ⟨false, 0, none⟩ ?_) ?_
      · intro j' _ hj' hmatch
        refine ⟨rfl, fun j'' _ hj'' hmatch' => ?_⟩
        obtain ⟨rfl, rfl⟩ := hloc.only idx (by omega) hzero j' (by omega) hmatch
        exact (hloc.only idx (by omega) hzero j'' (by omega) hmatch').2
      · rintro r last ⟨rfl, hr⟩
        by_cases heq : idx = k
        · subst heq
          have hfound : r.dirEntryFound = some j :=
            (hr.found j).2 (.inr ⟨Nat.zero_le _, by have := hloc.slot; omega, hloc.here⟩)
          simp only [hfound, wp_bind]
          exact wp_mono (hQ r hr) fun _ _ h => h
        · have hnone : r.dirEntryFound = none := by
            rw [Option.eq_none_iff_forall_not_mem]
            intro j' hj'
            rcases (hr.found j').1 hj' with h | ⟨-, hlt', hmatch⟩
            · exact absurd h (by simp)
            · exact heq (hloc.only idx (by omega) hzero j' (by omega) hmatch).1
          simp only [hnone]
          exact hnext heq

/-- The last part of `delete_dir_entry`: the size goes down and the inode is stored. -/
theorem wp_shrink_dir {Q : Unit → Kernel → Prop} (ha : Areas s.part)
    (hinode : s.inodes p = some inode) (hsize : 24 ≤ inode.iSize.toNat)
    (hQ : Q () (s.storeDir p { inode with iSize := inode.iSize - 24 })) :
    wp ok (do
      let s ← state
      let inode ← derefInode p
      assert (s.part.sb.dirEntrySize ≤ inode.iSize)
      let inode := { inode with iSize := inode.iSize - s.part.sb.dirEntrySize }
      storeInode p inode
      inodeSync inode 1024) s Q := by
  have hle : (24 : UInt32) ≤ inode.iSize := UInt32.le_iff_toNat_le.2 hsize
  have hrun : ∀ inode' : INode, inodeSync inode' 1024 (s.setInode p inode') =
      .done () (s.storeDir p inode') := by
    intro inode'
    refine inode_sync_run ha.table ?_
    rcases sec_cnt_cases (inodePosition s.part.sb (inode'.iNo % 256)) with h | h
    · exact Nat.le_trans (Nat.mul_le_mul_left 512 h.le) (by decide)
    · exact (congrArg (512 * ·) h).le
  simp only [wp_bind, wp_state, wp_deref_inode, hinode, of_some, ha.entrySize, hle]
  exact (wp_of_done (hrun _)).2 hQ

theorem Located.size_le (hloc : Located s.disk inode n k j) (h : DirOk s inode) :
    24 ≤ inode.iSize.toNat := by
  have hmem : ofBlock (dirPage s.disk inode k) j ∈ entries s inode :=
    mem_entries.2 ⟨k, hloc.block, hloc.used, j, hloc.slot, hloc.live, rfl⟩
  have hpos := Multiset.card_pos_iff_exists_mem.2 ⟨_, hmem⟩
  have hsize := h.size
  omega

/-- The part of `delete_dir_entry` that runs once the entry is found. -/
theorem wp_delete_found (hopen : OpenDir s d p inode) (hloc : Located s.disk inode n k j)
    (hr : Scanned (dirPage s.disk inode k) n 0 21 ⟨false, 0, none⟩ r)
    (hhang : OnlyDotdot (dirPage s.disk inode k) j → 12 ≤ k → ok .hang) :
    wp ok (deleteFound p k (blocksOf s.disk inode k) (dirPage s.disk inode k) r j) s
      fun _ last => Deleted s p inode k j last := by
  have ha := hopen.blocks.areas
  have hslot := hloc.slot
  have hcounted := isMatch_counted hloc.here
  have hgives := hr.only_dotdot_iff hslot hcounted
  have hsize := hloc.size_le hopen.contents
  have htaken := hopen.contents.taken k hloc.block hloc.used
  have hone : 1 ≤ r.dirEntryCnt := by
    rw [hr.cnt, Nat.zero_add]
    exact List.countP_pos_iff.2 ⟨j, by simp [hslot], hcounted⟩
  simp only [deleteFound, dropEntry]
  rw [wp_bind, wp_assert, decide_eq_true hone]
  refine ⟨fun _ => ?_, fun h => Bool.noConfusion h⟩
  rw [wp_bind]
  split
  · rename_i hcond
    have honly := hgives.1 hcond
    obtain ⟨i, hi, haddr, -, -⟩ := htaken
    rw [wp_bind, wp_state, haddr, block_addr_sub, wp_bind]
    refine wp_set_block ha hi ?_
    rw [wp_bind]
    refine wp_sync_block (ha.setBlockBit i false) hi ?_
    split
    · rename_i hk
      refine wp_store_sector hopen.memory ?_
      refine wp_shrink_dir (ha.setBlockBit i false) (Kernel.setInode_same ..) hsize ?_
      refine .freed i hi hk honly ?_ ?_
      · rw [← blocks_of_lt s.disk inode hk, haddr]
      · rw [Kernel.storeDir, Kernel.setInode_setInode]
        rfl
    · exact hhang honly (by omega)
  · rename_i hcond
    refine wp_write_sector (.inr htaken.in_range) ?_
    exact wp_shrink_dir ha hopen.memory hsize (.cleared (fun h => hcond (hgives.2 h)) rfl)

/-- `delete_dir_entry` on a well-formed directory removes the entry, or it does not return. -/
theorem wp_delete_dir_entry (hopen : OpenDir s d p inode) (hloc : Located s.disk inode n k j)
    (hhang : OnlyDotdot (dirPage s.disk inode k) j → 12 ≤ k → ok .hang) :
    wp ok (deleteDirEntry d n) s fun r last => r = true ∧ Deleted s p inode k j last := by
  obtain ⟨dir, hdir, rfl⟩ := hopen.dir
  have hrange : (inode.sector 12).toNat ≤ maxLba := by
    by_cases htable : inode.sector 12 = 0
    · rw [htable]
      exact Nat.zero_le _
    · exact (hopen.contents.table htable).in_range
  simp only [deleteDirEntry, wp_bind, wp_deref_dir, hdir, wp_deref_inode, of_some, hopen.memory]
  refine wp_all_blocks_of ?_ fun _ hlt => absurd hrange (by omega)
  have hk := hloc.block
  refine wp_delete_blocks hopen.blocks.areas hopen.contents.toDirBlocks hloc (fun r hr => ?_) 140 0
    (Nat.zero_le _) (by omega) le_rfl
  exact wp_mono (wp_delete_found hopen hloc hr hhang) fun _ _ h => ⟨rfl, h⟩

/-! ## The entries afterwards -/

/-- The disk was changed outside the blocks that are in use. -/
def SameBlocks (s last : Kernel) : Prop :=
  ∀ lba, Taken s.part lba → sectorAt last.disk lba.toNat = sectorAt s.disk lba.toNat

theorem DirBlocks.entriesAt_eq (h : DirBlocks s inode) (hsame : SameBlocks s last) (hk : k < 140) :
    entriesAt last.disk inode k = entriesAt s.disk inode k := by
  unfold entriesAt
  rw [blocks_of_congr inode (fun htable => hsame _ (h.table htable))]
  split
  · rfl
  · rename_i hne
    rw [hsame _ (h.taken k hk hne)]

theorem store_dir_same (ha : Areas s.part) (inode : INode) : SameBlocks s (s.storeDir p inode) :=
  fun _ htaken => sectorAt_congr fun _ hi =>
    store_record_disk (by omega) (htaken.not_in_table ha hi)

/-- Marking a block as free changes no block that is in use. -/
theorem drop_block_same (ha : Areas s.part) (hi : i < 8 * s.part.blockBitmap.btmpBytesLen) :
    SameBlocks s (s.dropBlock i) := by
  have hlen := ha.blockLen
  refine fun _ htaken => sectorAt_congr fun x hx => ?_
  have hbits := htaken.not_in_block_bits ha hx
  unfold InBlockBits at hbits
  exact Bytes.blit_outside (by simp only [Kernel.setBlockBit_sb]; omega)

theorem DirOk.cleared_entries (h : DirOk s inode) (ha : Areas s.part)
    (hloc : Located s.disk inode n k j)
    (hlast : last = (s.write (blocksOf s.disk inode k) (Bytes.blit (dirPage s.disk inode k) (24 * j)
      (fun _ => 0) dirEntrySize)).storeDir p { inode with iSize := inode.iSize - 24 }) :
    entries s inode = ofBlock (dirPage s.disk inode k) j ::ₘ
      entries last { inode with iSize := inode.iSize - 24 } := by
  have hzero := (h.dead k hloc.block hloc.used).clear j
  have hwrite := h.write_entries hloc.block hloc.used
    (Bytes.blit (dirPage s.disk inode k) (24 * j) (fun _ => 0) dirEntrySize)
  have hmid := h.write hloc.block hloc.used hzero
  rw [← dirPage, blockEntries_clear hloc.slot hloc.live, Multiset.add_cons, ← Multiset.cons_add,
    add_left_inj] at hwrite
  rw [← hwrite, hlast]
  exact congrArg _ (bag_congr fun _ hk => (hmid.entriesAt_eq
    (store_dir_same (s := s.write _ _) ha _) hk).symm)

/-- The addresses of the blocks after a direct block was taken out. -/
theorem blocks_of_set_sector (disk : Bytes) (inode : INode) (hk : k < 12) (k' : Nat) :
    blocksOf disk (inode.setSector k 0) k' = if k' = k then 0 else blocksOf disk inode k' := by
  have hsector : ∀ m, (inode.setSector k 0).sector m = if m = k then 0 else inode.sector m :=
    fun m => INode.sector_set_sector inode m 0 (by omega)
  have htable : (inode.setSector k 0).sector 12 = inode.sector 12 := by
    rw [hsector, if_neg (by omega)]
  unfold blocksOf
  rw [htable, hsector]
  by_cases heq : k' = k
  · rw [if_pos (by omega), if_pos heq, if_pos heq]
  · rw [if_neg heq, if_neg heq]

theorem DirOk.freed_entries (h : DirOk s inode) (ha : Areas s.part)
    (hloc : Located s.disk inode n k j) (hi : i < 8 * s.part.blockBitmap.btmpBytesLen) (hk : k < 12)
    (hlast : last = (s.dropBlock i).storeDir p
      { inode.setSector k 0 with iSize := inode.iSize - 24 }) :
    entries last { inode.setSector k 0 with iSize := inode.iSize - 24 } +
      blockEntries (dirPage s.disk inode k) = entries s inode := by
  have hsame : SameBlocks s last := by
    intro lba htaken
    have hdrop := drop_block_same ha hi lba htaken
    rw [← hdrop, hlast]
    refine sectorAt_congr fun x hx => store_record_disk (by omega) ?_
    exact htaken.not_in_table ha hx
  have hblock := blocks_of_set_sector last.disk inode hk
  have hchange := bag_change (f := entriesAt s.disk inode)
    (g := entriesAt last.disk (inode.setSector k 0)) hloc.block fun k' hk' hne => ?_
  · have hgone : entriesAt last.disk (inode.setSector k 0) k = 0 := by
      unfold entriesAt
      rw [hblock, if_pos rfl, if_pos rfl]
    have hold : entriesAt s.disk inode k = blockEntries (dirPage s.disk inode k) :=
      if_neg hloc.used
    rw [hgone, add_zero, hold] at hchange
    exact hchange
  · rw [← h.entriesAt_eq hsame hk']
    unfold entriesAt
    rw [hblock, if_neg hne]

/-! ## Deleting exactly -/

/-- Block `i` of the data area is to be given back with the entry in slot `j` of block `k`: it is
the block of the entry, which holds nothing else and is not the first block, or it is the indirect
table, which has no other block. -/
def GivenBack (s : Kernel) (inode : INode) (k j i : Nat) : Prop :=
  Lone (dirPage s.disk inode k) j ∧
    (k ≠ 0 ∧ blockAddr s.part.sb i = blocksOf s.disk inode k ∨
      12 ≤ k ∧ blockAddr s.part.sb i = inode.sector 12 ∧
        ∀ k' < 140, 12 ≤ k' → k' ≠ k → blocksOf s.disk inode k' = 0)

/-- What is expected of `delete_dir_entry` for the inode whose only entry is in slot `j` of block
`k`: it returns true, this entry and no other is gone, the size is that of one entry less, and
exactly the blocks that are to be given back are marked as free. -/
def DeletesExactly (s : Kernel) (d p : Ptr) (inode : INode) (n : UInt32) (k j : Nat) : Prop :=
  ∃ last inode', deleteDirEntry d n s = .done true last ∧ last.inodes p = some inode' ∧
    entries s inode = ofBlock (dirPage s.disk inode k) j ::ₘ entries last inode' ∧
    inode.iSize.toNat = inode'.iSize.toNat + 24 ∧
    ∀ i < 8 * s.part.blockBitmap.btmpBytesLen, bitmapScanTest last.part.blockBitmap i = true ↔
      bitmapScanTest s.part.blockBitmap i = true ∧ ¬GivenBack s inode k j i

theorem Located.size_sub (hloc : Located s.disk inode n k j) (h : DirOk s inode) :
    inode.iSize.toNat = (inode.iSize - 24).toNat + 24 := by
  have hsize := hloc.size_le h
  have hle : (24 : UInt32) ≤ inode.iSize := UInt32.le_iff_toNat_le.2 hsize
  rw [UInt32.toNat_sub_of_le _ _ hle]
  exact (Nat.sub_add_cancel hsize).symm

/-- Giving the block back is right where nothing else is in it and it is not the first one. -/
theorem deletes_exactly_of_freed (hopen : OpenDir s d p inode) (hloc : Located s.disk inode n k j)
    (hdone : deleteDirEntry d n s = .done true last) (hi : i < 8 * s.part.blockBitmap.btmpBytesLen)
    (hk : k < 12) (haddr : inode.sector k = blockAddr s.part.sb i)
    (hlast : last = (s.dropBlock i).storeDir p
      { inode.setSector k 0 with iSize := inode.iSize - 24 }) :
    DeletesExactly s d p inode n k j ↔ Lone (dirPage s.disk inode k) j ∧ k ≠ 0 := by
  have hentries := hopen.contents.freed_entries hopen.blocks.areas hloc hi hk hlast
  have hmemory : last.inodes p = some { inode.setSector k 0 with iSize := inode.iSize - 24 } := by
    rw [hlast]
    exact Function.update_self ..
  have hbits : ∀ i', bitmapScanTest last.part.blockBitmap i' =
      if i' = i then false else bitmapScanTest s.part.blockBitmap i' := by
    intro i'
    rw [hlast]
    exact scan_test_bitmap_set ..
  have hset : bitmapScanTest s.part.blockBitmap i = true := by
    obtain ⟨i', hi', haddr', hset, -⟩ := hopen.contents.taken k hloc.block hloc.used
    rw [blocks_of_lt _ _ hk, haddr] at haddr'
    rw [block_addr_inj hopen.blocks.areas hi hi' haddr']
    exact hset
  constructor
  · intro ⟨last', inode', hdone', hinode', hexact, _, hback⟩
    rw [hdone] at hdone'
    injection hdone' with _ hsame
    subst hsame
    obtain rfl := Option.some.inj (hmemory.symm.trans hinode')
    have hlone : Lone (dirPage s.disk inode k) j := by
      rw [lone_iff hloc.slot hloc.live]
      rw [← hentries, ← Multiset.singleton_add, add_comm, add_left_inj] at hexact
      exact hexact
    refine ⟨hlone, ?_⟩
    rintro rfl
    have hkept := (hback i hi).2 ⟨hset, fun h => h.2.elim (fun h => h.1 rfl) fun h => by omega⟩
    rw [hbits, if_pos rfl] at hkept
    exact Bool.noConfusion hkept
  · intro ⟨hlone, hne⟩
    refine ⟨last, _, hdone, hmemory, ?_, hloc.size_sub hopen.contents, fun i' hi' => ?_⟩
    · rw [← hentries, (lone_iff hloc.slot hloc.live).1 hlone, add_comm, Multiset.singleton_add]
    · rw [hbits]
      by_cases heq : i' = i
      · rw [heq]
        refine iff_of_false (by simp) fun h => h.2 ⟨hlone, .inl ⟨hne, ?_⟩⟩
        rw [blocks_of_lt _ _ hk, haddr]
      · rw [if_neg heq]
        refine (and_iff_left ?_).symm
        rintro ⟨-, ⟨-, hsame⟩ | ⟨hge, -⟩⟩
        · rw [blocks_of_lt _ _ hk, haddr] at hsame
          exact heq (block_addr_inj hopen.blocks.areas hi' hi hsame)
        · omega

/-- The entry is the only one that is gone, unless a block was given back that should stay. -/
theorem Deleted.exactly_iff (h : Deleted s p inode k j last) (hopen : OpenDir s d p inode)
    (hloc : Located s.disk inode n k j) (hdone : deleteDirEntry d n s = .done true last) :
    DeletesExactly s d p inode n k j ↔ (OnlyDotdot (dirPage s.disk inode k) j →
      Lone (dirPage s.disk inode k) j ∧ 0 < k ∧ k < 12) := by
  cases h with
  | freed i hi hk honly haddr hlast =>
    rw [deletes_exactly_of_freed hopen hloc hdone hi hk haddr hlast, imp_iff_right honly,
      and_iff_left hk, Nat.pos_iff_ne_zero]
  | cleared hnot hlast =>
    -- clearing the slot is right where the block is not given back
    refine iff_of_true ⟨last, _, hdone, ?_, hopen.contents.cleared_entries hopen.blocks.areas hloc
      hlast, hloc.size_sub hopen.contents, fun i _ => ?_⟩ fun honly => absurd honly hnot
    · rw [hlast]
      exact Function.update_self ..
    · rw [hlast]
      exact (and_iff_left fun hback => hnot hback.1.only_dotdot).symm

/-- `delete_dir_entry` deletes the only entry of an inode exactly when the block of the entry holds
`.` or a further entry, or when the entry is alone in a direct block other than the first. In the
other cases it gives back the first block, or a block with `..` in it, or it does not return because
the block belongs to the indirect table. -/
theorem deletes_exactly_iff {s : Kernel} {d p : Ptr} {inode : INode} {n : UInt32} {k j : Nat}
    (hopen : OpenDir s d p inode) (hloc : Located s.disk inode n k j) :
    DeletesExactly s d p inode n k j ↔ (OnlyDotdot (dirPage s.disk inode k) j →
      Lone (dirPage s.disk inode k) j ∧ 0 < k ∧ k < 12) := by
  by_cases hhang : OnlyDotdot (dirPage s.disk inode k) j ∧ 12 ≤ k
  · obtain ⟨honly, hge⟩ := hhang
    refine iff_of_false ?_ fun h => absurd (h honly).2.2 (by omega)
    intro ⟨last, _, hdone, _⟩
    have hwp : wp any (deleteDirEntry d n) s fun r last =>
        r = true ∧ Deleted s p inode k j last := wp_delete_dir_entry hopen hloc fun _ _ => trivial
    cases (wp_any_iff.1 hwp true last hdone).2 with
    | freed i hi hk => omega
    | cleared hnot => exact hnot honly
  · have hwp : wp never (deleteDirEntry d n) s fun r last =>
        r = true ∧ Deleted s p inode k j last :=
      wp_delete_dir_entry hopen hloc fun honly hge => hhang ⟨honly, hge⟩
    obtain ⟨r, last, hdone, rfl, hdeleted⟩ := wp_never_iff.1 hwp
    exact hdeleted.exactly_iff hopen hloc hdone

/-- A disk with a directory: the entries `.` and `..` are in block 676, and an entry for inode 7
is in another block. -/
def smallDisk (lba : Nat) : Bytes :=
  Bytes.blit (Bytes.blit (Bytes.blit (fun _ => 0) (512 * 676) (DirEntry.bytes
    ⟨fun k => dotName.getD k 0, 1, 2⟩) 24) (512 * 676 + 24) (DirEntry.bytes
    ⟨fun k => dotdotName.getD k 0, 0, 2⟩) 24) (512 * lba) newEntry.bytes 24

/-- The inode of a directory with two direct blocks. -/
def twoBlockDir : INode := { (oneBlockDir 72).setSector 1 677 with iOpenCnts := 1 }

theorem two_block_open : OpenDir (dirKernel 7 (smallDisk 677) twoBlockDir) 5 2 twoBlockDir := by
  refine dir_kernel_open [0, 1] (by decide) (by decide +kernel) ?_ (fun h => absurd rfl h)
    (by decide +kernel) ?_ (by decide +kernel)
  · simp only [List.forall_mem_cons, List.not_mem_nil, false_implies, implies_true, and_true]
    exact ⟨⟨1, by decide, by decide, by decide, by decide⟩,
      ⟨2, by decide, by decide, by decide, by decide⟩⟩
  · simp only [List.forall_mem_cons, DeadZero]
    decide +kernel

theorem deletes_exactly_iff_two_blocks :
    DeletesExactly (dirKernel 7 (smallDisk 677) twoBlockDir) 5 2 twoBlockDir 7 1 0 :=
  (deletes_exactly_iff two_block_open ⟨by decide, by decide, by decide, by decide +kernel,
    by decide +kernel⟩).2 fun _ => ⟨by unfold Lone; decide +kernel, by decide, by decide⟩

/-- The inode of a directory with one direct block and an indirect table. -/
def tableDir : INode := { (oneBlockDir 72).setSector 12 677 with iOpenCnts := 1 }

/-- A disk with a directory whose indirect table has one block, with one entry in it. -/
def tableDisk : Bytes :=
  Bytes.blit (smallDisk 678) (512 * 677) (Bytes.words fun j => if j = 0 then 678 else 0) 512

theorem table_open : OpenDir (dirKernel 15 tableDisk tableDir) 5 2 tableDir := by
  refine dir_kernel_open [0, 12] (by decide) (by decide +kernel) ?_ (fun _ => ?_)
    (by decide +kernel) ?_ (by decide +kernel)
  · simp only [List.forall_mem_cons, List.not_mem_nil, false_implies, implies_true, and_true]
    exact ⟨⟨1, by decide, by decide, by decide, by decide⟩,
      ⟨3, by decide, by decide +kernel, by decide, by decide +kernel⟩⟩
  · exact ⟨2, by decide, by decide, by decide, by decide⟩
  · simp only [List.forall_mem_cons, DeadZero]
    decide +kernel

/-- The only entry in the only block of an indirect table is deleted: `delete_dir_entry` does not
return. -/
theorem delete_in_table_hangs : OpenDir (dirKernel 15 tableDisk tableDir) 5 2 tableDir ∧
      Located tableDisk tableDir 7 12 0 ∧
      deleteDirEntry 5 7 (dirKernel 15 tableDisk tableDir) = .stop .hang :=
  ⟨table_open, ⟨by decide, by decide +kernel, by decide, by decide +kernel, by decide +kernel⟩, rfl⟩

end LosKernel
