import LosKernel.Fs.Inode

/-!
# The inode table

Where the records of the inode table lie, and what `inode_sync`, `inode_open` and `inode_delete`
do to them. A record may straddle two sectors; both transfers come down to one block copy at
`inodeOffset`.
-/

namespace LosKernel

open Prog

variable {n : UInt32} {s : Kernel} {part : Partition} {inode : INode} {m : Nat}

/-! ## Positions -/

/-- The byte offset of inode `n` in the inode table. -/
def inodeOffset (sb : SuperBlock) (n : Nat) : Nat := 512 * sb.inodeTableLba.toNat + inodeSize * n

/-- The inode table lies inside the partition and inside the part of the disk that can be
addressed. -/
structure TableLaidOut (part : Partition) : Prop where
  inPart : part.sb.inodeTableLba.toNat + 608 ≤ part.startLba.toNat + part.secCnt.toNat
  noWrap : part.startLba.toNat + part.secCnt.toNat < 2 ^ 32
  inRange : part.sb.inodeTableLba.toNat + 607 ≤ maxLba

/-- The record of inode `n`, as stored on disk. -/
def inodeRecord (s : Kernel) (n : Nat) : INode := INode.ofBytes s.disk (inodeOffset s.part.sb n)

theorem sec_cnt_cases (pos : INodePosition) : pos.secCnt = 1 ∨ pos.secCnt = 2 := by
  unfold INodePosition.secCnt
  split <;> simp

theorem inode_position_lba (hl : TableLaidOut part) (hn : n.toNat < 4096) :
    (inodePosition part.sb n).secLba.toNat = part.sb.inodeTableLba.toNat + 76 * n.toNat / 512 := by
  have h1 := hl.inPart
  have h2 := hl.noWrap
  simp only [inodePosition, inodeSize, UInt32.toNat_add, UInt32.toNat_ofNat',
    Nat.mul_comm n.toNat 76]
  omega

/-- The position `inode_locate` computes is the offset of the record. -/
theorem inode_position_offset (hl : TableLaidOut part) (hn : n.toNat < 4096) :
    512 * (inodePosition part.sb n).secLba.toNat + (inodePosition part.sb n).offSize =
      inodeOffset part.sb n.toNat := by
  rw [inode_position_lba hl hn]
  simp only [inodePosition, inodeOffset, inodeSize]
  omega

theorem two_sec_iff (sb : SuperBlock) (n : UInt32) :
    (inodePosition sb n).twoSec = true ↔ 436 < 76 * n.toNat % 512 := by
  change decide (512 - n.toNat * 76 % 512 < 76) = true ↔ _
  rw [decide_eq_true_eq, Nat.mul_comm]
  omega

/-- The sectors transferred for an inode hold its record. -/
theorem inode_position_fits (sb : SuperBlock) (n : UInt32) :
    (inodePosition sb n).offSize + inodeSize ≤ 512 * (inodePosition sb n).secCnt := by
  have hoff : (inodePosition sb n).offSize = 76 * n.toNat % 512 := by
    simp [inodePosition, inodeSize, Nat.mul_comm]
  have htwo := two_sec_iff sb n
  simp only [INodePosition.secCnt, inodeSize]
  split
  · omega
  · rename_i h
    rw [htwo] at h
    omega

theorem inode_position_in_range (hl : TableLaidOut part) (hn : n.toNat < 4096) :
    sectorsInRange (inodePosition part.sb n).secLba (inodePosition part.sb n).secCnt = true := by
  have h1 := hl.inRange
  have h2 := inode_position_lba hl hn
  rcases sec_cnt_cases (inodePosition part.sb n) with h | h
  all_goals
    simp only [sectorsInRange]
    simp
    omega

theorem inode_position_in_part (hl : TableLaidOut part) (hn : n.toNat < 4096) :
    (inodePosition part.sb n).secLba ≤ part.startLba + part.secCnt := by
  have h1 := hl.inPart
  have h2 := hl.noWrap
  rw [UInt32.le_iff_toNat_le, inode_position_lba hl hn, UInt32.toNat_add]
  omega

/-! ## Transfers of a record -/

/-- What `inode_sync` and `inode_delete` do to the disk: they replace one record. -/
def storeRecord (s : Kernel) (n : Nat) (record : Bytes) : Kernel :=
  { s with disk := Bytes.blit s.disk (inodeOffset s.part.sb n) record inodeSize }

/-- The inode `inode_sync` writes, without the fields that only count in memory. -/
def INode.stored (inode : INode) : INode := { inode with iOpenCnts := 0, writeDeny := false }

/-- `inode_sync` stores the record of the number modulo 256. -/
theorem inode_sync_run {ioBufSize : Nat} (hl : TableLaidOut s.part)
    (hbuf : 512 * (inodePosition s.part.sb (inode.iNo % 256)).secCnt ≤ ioBufSize) :
    inodeSync inode ioBufSize s =
      .done () (storeRecord s (inode.iNo.toNat % 256) inode.stored.bytes) := by
  have hmod : (inode.iNo % 256).toNat = inode.iNo.toNat % 256 := by simp
  have hn : (inode.iNo % 256).toNat < 4096 := by omega
  have hlt : inode.iNo % 256 < 4096 := by simpa [UInt32.lt_iff_toNat_lt] using hn
  simp only [inodeSync, inodeLocate, assert, bind_run, guard_run,
    state_run, pure_run, hlt, decide_true, if_true, inode_position_in_part hl hn, hbuf,
    ide_read_run (inode_position_in_range hl hn), ide_write_run (inode_position_in_range hl hn),
    blit_sectors_patch (inode_position_fits _ _), inode_position_offset hl hn]
  rfl

/-- `inode_delete` zeroes the record. -/
theorem inode_delete_run (hl : TableLaidOut s.part) (hn : n.toNat < 4096) :
    inodeDelete n 1024 s = .done () (storeRecord s n.toNat fun _ => 0) := by
  have hlt : n < 4096 := by simpa [UInt32.lt_iff_toNat_lt] using hn
  have hbuf : 512 * (inodePosition s.part.sb n).secCnt ≤ 1024 := by
    rcases sec_cnt_cases (inodePosition s.part.sb n) with h | h <;> omega
  simp only [inodeDelete, inodeLocate, assert, bind_run, guard_run,
    state_run, pure_run, hlt, decide_true, if_true, inode_position_in_part hl hn, hbuf,
    ide_read_run (inode_position_in_range hl hn), ide_write_run (inode_position_in_range hl hn),
    blit_sectors_patch (inode_position_fits _ _), inode_position_offset hl hn]
  rfl

/-! ## Records after a transfer -/

/-- The stored form of an inode reads back as that inode. -/
theorem of_bytes_stored {disk : Bytes} {off : Nat} (inode : INode) :
    INode.ofBytes (Bytes.blit disk off inode.stored.bytes inodeSize) off = inode.stored := by
  have hword : ∀ k < 19, Bytes.word (Bytes.blit disk off inode.stored.bytes inodeSize)
      (off + 4 * k) = inode.stored.toWords k := by
    intro k hk
    rw [Bytes.word_blit_inside (by omega) (by unfold inodeSize; omega), Nat.add_sub_cancel_left]
    exact inode.stored.word_bytes k
  have hdeny : Bytes.blit disk off inode.stored.bytes inodeSize (off + 12) = 0 := by
    rw [Bytes.blit_inside (by omega) (by unfold inodeSize; omega)]
    simp [INode.bytes, Bytes.words, INode.toWords, INode.stored]
  have hsec : ∀ k : Fin 13, Bytes.word (Bytes.blit disk off inode.stored.bytes inodeSize)
      (off + 16 + 4 * k.val) = inode.iSectors k := by
    intro k
    rw [show off + 16 + 4 * k.val = off + 4 * (k.val + 4) by omega, hword (k.val + 4) (by omega)]
    simp [INode.toWords, INode.sector, INode.stored]
  have h0 := hword 0 (by omega)
  have h1 := hword 1 (by omega)
  have h2 := hword 2 (by omega)
  simp only [Nat.mul_zero, Nat.add_zero] at h0 h1 h2
  simp only [INode.ofBytes, h0, h1, h2, hdeny, hsec]
  simp [INode.toWords, INode.stored]

/-- A stored inode is what the table then holds under its number. -/
theorem inode_record_store_same (s : Kernel) (n : Nat) (inode : INode) :
    inodeRecord (storeRecord s n inode.stored.bytes) n = inode.stored :=
  of_bytes_stored inode

/-- The bytes of the other records are unchanged. -/
theorem store_record_bytes_ne (s : Kernel) {n : Nat} (record : Bytes) (h : m ≠ n) {i : Nat}
    (hi : i < inodeSize) :
    (storeRecord s n record).disk (inodeOffset s.part.sb m + i) =
      s.disk (inodeOffset s.part.sb m + i) := by
  apply Bytes.blit_outside
  unfold inodeOffset inodeSize at *
  omega

theorem inode_record_store_ne (s : Kernel) {n : Nat} (record : Bytes) (h : m ≠ n) :
    inodeRecord (storeRecord s n record) m = inodeRecord s m :=
  INode.of_bytes_congr fun _ hi => store_record_bytes_ne s record h hi

/-! ## Loading a record -/

/-- The inode that `inode_open` reads from the disk. -/
def inodeLoaded (s : Kernel) (n : UInt32) : INode :=
  INode.ofBytes (sectorsAt s.disk (inodePosition s.part.sb n).secLba.toNat
    (inodePosition s.part.sb n).secCnt) (inodePosition s.part.sb n).offSize

theorem inode_loaded_eq_record (hl : TableLaidOut s.part) (hn : n.toNat < 4096) :
    inodeLoaded s n = inodeRecord s n.toNat := by
  have hfits := inode_position_fits s.part.sb n
  have hoff := inode_position_offset hl hn
  apply INode.of_bytes_congr
  intro i hi
  simp only [sectorsAt]
  rw [if_pos (by omega)]
  congr 1
  omega

/-- The state after inode `p` was put in front of `open_inodes`. -/
def pushInode (s : Kernel) (heap : Heap) (p : Ptr) (inode : INode) : Kernel :=
  { s with
    heap := heap
    openInodes := p :: s.openInodes
    inodes := Function.update s.inodes p (some inode) }

/-- An `inode_open` that misses the cache puts the inode it loads at a new address, in front of
`open_inodes`. It stops only when memory is refused or the number is not one of the table. -/
theorem inode_open_miss {ok : Stop → Prop}
    (hok : (∀ r, ok r) ∨ HeapOk s ∧ TableLaidOut s.part ∧ n.toNat < 4096)
    (hmiss : findOpenInode s n = none) :
    wp ok (inodeOpen n) s fun p last =>
      n.toNat < 4096 ∧ ∃ heap, s.heap.requests < p ∧ p ≤ heap.requests ∧
        last = pushInode s heap p { inodeLoaded s n with iOpenCnts := 1 } := by
  have hlt : n < 4096 ↔ n.toNat < 4096 := by simp [UInt32.lt_iff_toNat_lt]
  simp only [inodeOpen, inodeLocate, mallocKernalInode, wp_bind, wp_state, hmiss, wp_assert,
    wp_sys_malloc, wp_non_null, wp_ide_read, wp_pure, decide_eq_true_eq, decide_eq_false_iff_not,
    Option.some.injEq, Option.isSome_some, forall_eq', reduceCtorEq, false_implies, hlt]
  rcases hok with hok | ⟨hheap, hl, hn⟩
  · simp only [hok, implies_true, and_true]
    intro hn _ _ _ _
    refine ⟨hn, _, ?_, ?_, rfl⟩ <;> simp
  · have hrange := inode_position_in_range hl hn
    simp only [hheap _ _, hrange, hn, Bool.true_eq_false, false_implies, and_true, forall_const,
      not_true_eq_false]
    refine ⟨trivial, _, ?_, ?_, rfl⟩ <;> simp

/-! ## The store as a whole -/

/-- Storing an inode works: it returns, the inode is loaded again, and no other record is touched.
The load may happen in any later state that still has the record. It returns the inode, and stops
only if memory is refused. -/
def SyncSound (s : Kernel) (inode : INode) : Prop :=
  ∃ last, inodeSync inode 1024 s = .done () last ∧
    (∀ later, later.part = last.part →
      (∀ i < inodeSize, later.disk (inodeOffset s.part.sb inode.iNo.toNat + i) =
        last.disk (inodeOffset s.part.sb inode.iNo.toNat + i)) →
      findOpenInode later inode.iNo = none →
      wp (fun _ => ¬HeapOk later) (inodeOpen inode.iNo) later fun p final =>
        ∃ loaded, final.inodes p = some loaded ∧ loaded.iNo = inode.iNo ∧
          loaded.iSize = inode.iSize ∧ loaded.iSectors = inode.iSectors) ∧
    ∀ m < 4096, m ≠ inode.iNo.toNat → ∀ i < inodeSize,
      last.disk (inodeOffset s.part.sb m + i) = s.disk (inodeOffset s.part.sb m + i)

/-- Deleting an inode works: it returns, the record is cleared, and no other record is touched. -/
def DeleteSound (s : Kernel) (n : UInt32) : Prop :=
  ∃ last, inodeDelete n 1024 s = .done () last ∧
    (∀ i < inodeSize, last.disk (inodeOffset s.part.sb n.toNat + i) = 0) ∧
    ∀ m < 4096, m ≠ n.toNat → ∀ i < inodeSize,
      last.disk (inodeOffset s.part.sb m + i) = s.disk (inodeOffset s.part.sb m + i)

/-- The inode table works as a store for inode number `n`. -/
def InodeStoreSound (s : Kernel) (n : UInt32) : Prop :=
  (∀ inode : INode, inode.iNo = n → SyncSound s inode) ∧ DeleteSound s n

theorem delete_sound (hl : TableLaidOut s.part) (hn : n.toNat < 4096) : DeleteSound s n := by
  refine ⟨_, inode_delete_run hl hn, ?_, ?_⟩
  · intro i hi
    dsimp only [storeRecord]
    rw [Bytes.blit_inside (Nat.le_add_right _ _) (Nat.add_lt_add_left hi _)]
  · intro m _ hm i hi
    exact store_record_bytes_ne s _ hm hi

/-- A buffer of two sectors is enough for every inode. -/
theorem sec_cnt_le_two_sectors (pos : INodePosition) : 512 * pos.secCnt ≤ 1024 := by
  rcases sec_cnt_cases pos with h | h <;> omega

theorem sync_sound (hl : TableLaidOut s.part) (hn : inode.iNo.toNat < 256) :
    SyncSound s inode := by
  have hrun : inodeSync inode 1024 s = _ := inode_sync_run hl (sec_cnt_le_two_sectors _)
  rw [Nat.mod_eq_of_lt hn] at hrun
  refine ⟨_, hrun, ?_, ?_⟩
  · intro later hpart hdisk hmiss
    have hpart' : later.part = s.part := hpart
    have hok : (∀ _ : Stop, ¬HeapOk later) ∨ HeapOk later ∧ TableLaidOut later.part ∧
        inode.iNo.toNat < 4096 := by
      by_cases hheap : HeapOk later
      · exact .inr ⟨hheap, hpart' ▸ hl, by omega⟩
      · exact .inl fun _ => hheap
    refine wp_mono (inode_open_miss hok hmiss) ?_
    rintro p _ ⟨-, heap, -, -, rfl⟩
    have hrecord : inodeRecord later inode.iNo.toNat = inode.stored := by
      rw [← inode_record_store_same s inode.iNo.toNat inode]
      unfold inodeRecord
      rw [hpart']
      exact INode.of_bytes_congr hdisk
    have hloaded : inodeLoaded later inode.iNo = inode.stored := by
      rw [inode_loaded_eq_record (hpart' ▸ hl) (by omega), hrecord]
    refine ⟨_, Function.update_self .., ?_⟩
    rw [hloaded]
    exact ⟨rfl, rfl, rfl⟩
  · intro m _ hm i hi
    exact store_record_bytes_ne s _ hm hi

/-- An inode whose number does not fit in eight bits is written over another record. -/
theorem not_sync_sound (hl : TableLaidOut s.part) (hn : 256 ≤ n.toNat) :
    ∃ inode : INode, inode.iNo = n ∧ ¬SyncSound s inode := by
  let victim := n.toNat % 256
  let inode : INode :=
    { inodeInit n with iSize := (inodeRecord s victim).iSize + 1 }
  refine ⟨inode, rfl, ?_⟩
  intro ⟨last, hrun, _, hframe⟩
  rw [inode_sync_run hl (sec_cnt_le_two_sectors _)] at hrun
  obtain ⟨-, rfl⟩ := Outcome.done.inj hrun
  have hsame : inodeRecord (storeRecord s victim inode.stored.bytes) victim =
      inodeRecord s victim :=
    INode.of_bytes_congr (hframe victim (by omega) (by change n.toNat % 256 ≠ n.toNat; omega))
  rw [inode_record_store_same] at hsame
  have hsize : (inodeRecord s victim).iSize + 1 = (inodeRecord s victim).iSize :=
    congrArg INode.iSize hsame
  simp at hsize

/-- The inode table works exactly for the inode numbers that fit in the eight bits of the local
variable of `inode_sync`. -/
theorem inode_store_sound_iff {s : Kernel} {n : UInt32} (hl : TableLaidOut s.part)
    (hn : n.toNat < 4096) : InodeStoreSound s n ↔ n.toNat < 256 := by
  constructor
  · intro ⟨hsync, _⟩
    by_contra hge
    obtain ⟨inode, hno, hnot⟩ := not_sync_sound hl (n := n) (by omega)
    exact hnot (hsync inode hno)
  · intro hlt
    exact ⟨fun inode hno => sync_sound hl (hno ▸ hlt), delete_sound hl hn⟩

/-- A partition whose inode table starts at sector 67. -/
def tablePartition : Partition :=
  { Partition.unmounted 63 5000 with
    sb := { (Partition.unmounted 63 5000).sb with inodeTableLba := 67 } }

theorem table_partition_laid_out : TableLaidOut tablePartition := by
  constructor <;> decide

theorem inode_store_sound_at_seven :
    InodeStoreSound { Kernel.start with part := tablePartition } 7 :=
  (inode_store_sound_iff table_partition_laid_out (by decide)).mpr (by decide)

/-- Storing inode 256 replaces the record of inode 0. -/
theorem inode_store_fails_at_256 :
    ¬InodeStoreSound { Kernel.start with part := tablePartition } 256 := by
  intro ⟨hsync, _⟩
  obtain ⟨last, hrun, -, hframe⟩ := hsync (inodeInit 256) rfl
  obtain ⟨-, rfl⟩ := Outcome.done.inj hrun
  have h := hframe 0 (by decide) (by decide) 1 (by decide)
  revert h
  decide +kernel

end LosKernel
