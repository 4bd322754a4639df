import LosKernel.Fs.DirEntries
import LosKernel.Fs.FileBlocks
import LosKernel.Lib.Bag

/-!
# The contents of directories

A directory is a multiset of entries. `entries` reads it off the blocks of the directory, and
`DirOk` is the invariant of the representation.

`sync_dir_entry` adds an entry exactly when it finds a free slot in a direct block before the
first missing one. When it makes a new block it enters the entry twice, and it never looks at the
blocks of an indirect table.
-/

namespace LosKernel

open Prog

variable {disk b c : Bytes} {j k : Nat} {e : DirEntry} {s last : Kernel} {inode : INode}
  {d p : Ptr}
open DirEntry (ofBlock)
open Bytes (blit)

/-! ## The entries of a block -/

/-- What slot `j` of a block holds. -/
def slotEntry (b : Bytes) (j : Nat) : Multiset DirEntry :=
  if (ofBlock b j).live then {ofBlock b j} else 0

/-- The live entries of a block. -/
def blockEntries (b : Bytes) : Multiset DirEntry := bag 21 (slotEntry b)

/-- The slots that hold no live entry are zero. -/
def DeadZero (b : Bytes) : Prop :=
  ∀ j < 21, (ofBlock b j).live = false → ∀ i < 24, b (24 * j + i) = 0

theorem slotEntry_live (h : (ofBlock b j).live = true) :
    slotEntry b j = {ofBlock b j} := if_pos h

theorem slotEntry_dead (h : (ofBlock b j).live = false) : slotEntry b j = 0 :=
  if_neg (by simp [h])

theorem slotEntry_congr (h : ofBlock b j = ofBlock c j) :
    slotEntry b j = slotEntry c j := by
  rw [slotEntry, slotEntry, h]

theorem slotEntry_card_le (b : Bytes) (j : Nat) : (slotEntry b j).card ≤ 1 := by
  unfold slotEntry
  split <;> simp

theorem live_eq_true : e.live = true ↔ e.fType ≠ 0 := by
  simp [DirEntry.live, FileType.code]

theorem live_eq_false : e.live = false ↔ e.fType = 0 := by
  simp [DirEntry.live, FileType.code]

/-- Only the first 512 bytes of a block are stored. -/
theorem of_block_clip (b : Bytes) (hj : j < 21) :
    ofBlock (clip b) j = ofBlock b j :=
  of_block_congr fun i hi => if_pos (by omega)

theorem blockEntries_clip (b : Bytes) : blockEntries (clip b) = blockEntries b :=
  bag_congr fun _ hj => slotEntry_congr (of_block_clip b hj)

theorem DeadZero.clip (h : DeadZero b) : DeadZero (clip b) := by
  intro j hj hdead i hi
  rw [of_block_clip b hj] at hdead
  unfold LosKernel.clip
  rw [h j hj hdead i hi, ite_self]

theorem blockEntries_put (hj : j < 21) (hdead : (ofBlock b j).live = false)
    (he : e.live = true) :
    blockEntries (blit b (24 * j) e.bytes dirEntrySize) = e ::ₘ blockEntries b := by
  have hsame := of_block_blit_same b j e
  have hchange : blockEntries (blit b (24 * j) e.bytes dirEntrySize) + slotEntry b j =
      blockEntries b + slotEntry (blit b (24 * j) e.bytes dirEntrySize) j :=
    bag_change hj fun k _ hne => slotEntry_congr (of_block_blit_ne b e.bytes hne)
  rw [slotEntry_dead hdead, slotEntry_live (hsame.symm ▸ he), hsame, add_zero, add_comm] at hchange
  rw [hchange, Multiset.singleton_add]

theorem DeadZero.put (h : DeadZero b) (he : e.live = true) (j : Nat) :
    DeadZero (blit b (24 * j) e.bytes dirEntrySize) := by
  intro k hk hdead i hi
  by_cases heq : k = j
  · subst heq
    rw [of_block_blit_same, he] at hdead
    exact Bool.noConfusion hdead
  · rw [of_block_blit_ne b e.bytes heq] at hdead
    rw [Bytes.blit_outside (by unfold dirEntrySize; omega)]
    exact h k hk hdead i hi

theorem of_block_cleared (b : Bytes) (j : Nat) :
    (ofBlock (blit b (24 * j) (fun _ => 0) dirEntrySize) j).live = false := by
  have hzero : ofBlock (blit b (24 * j) (fun _ => 0) dirEntrySize) j =
      ofBlock (fun _ => 0) j :=
    of_block_congr fun i hi => Bytes.blit_inside (by omega) (by unfold dirEntrySize; omega)
  rw [hzero, live_eq_false]
  exact of_block_zero_type j

theorem blockEntries_clear (hj : j < 21) (hlive : (ofBlock b j).live = true) :
    blockEntries b =
      ofBlock b j ::ₘ blockEntries (blit b (24 * j) (fun _ => 0) dirEntrySize) := by
  have hchange : blockEntries (blit b (24 * j) (fun _ => 0) dirEntrySize) + slotEntry b j =
      blockEntries b + slotEntry (blit b (24 * j) (fun _ => 0) dirEntrySize) j :=
    bag_change hj fun k _ hne => slotEntry_congr (of_block_blit_ne b _ hne)
  rw [slotEntry_dead (of_block_cleared b j), slotEntry_live hlive, add_zero, add_comm] at hchange
  rw [← hchange, Multiset.singleton_add]

theorem DeadZero.clear (h : DeadZero b) (j : Nat) :
    DeadZero (blit b (24 * j) (fun _ => 0) dirEntrySize) := by
  intro k hk hdead i hi
  by_cases heq : k = j
  · subst heq
    exact Bytes.blit_inside (by omega) (by unfold dirEntrySize; omega)
  · rw [of_block_blit_ne b _ heq] at hdead
    rw [Bytes.blit_outside (by unfold dirEntrySize; omega)]
    exact h k hk hdead i hi

/-! ## The entries of a directory -/

/-- The live entries of block `k` of a directory. -/
def entriesAt (disk : Bytes) (inode : INode) (k : Nat) : Multiset DirEntry :=
  if blocksOf disk inode k = 0 then 0
  else blockEntries (sectorAt disk (blocksOf disk inode k).toNat)

/-- The live entries of a directory. -/
def entries (s : Kernel) (inode : INode) : Multiset DirEntry := bag 140 (entriesAt s.disk inode)

/-- The blocks of a directory are in use, and no two of them are the same. -/
structure DirBlocks (s : Kernel) (inode : INode) : Prop where
  taken : ∀ k < 140, blocksOf s.disk inode k ≠ 0 → Taken s.part (blocksOf s.disk inode k)
  inj : ∀ j < 140, ∀ k < 140, blocksOf s.disk inode j ≠ 0 →
    blocksOf s.disk inode j = blocksOf s.disk inode k → j = k
  table : inode.sector 12 ≠ 0 → Taken s.part (inode.sector 12)
  tableNe : ∀ k < 140, blocksOf s.disk inode k ≠ 0 → blocksOf s.disk inode k ≠ inode.sector 12
  dead : ∀ k < 140, blocksOf s.disk inode k ≠ 0 →
    DeadZero (sectorAt s.disk (blocksOf s.disk inode k).toNat)

/-- The representation invariant of a directory. -/
structure DirOk (s : Kernel) (inode : INode) : Prop extends DirBlocks s inode where
  size : inode.iSize.toNat = 24 * (entries s inode).card

theorem blocks_of_lt (disk : Bytes) (inode : INode) (h : k < 12) :
    blocksOf disk inode k = inode.sector k := if_pos h

/-- The addresses of the blocks depend on the table only. -/
theorem blocks_of_congr {disk' : Bytes} (inode : INode) (h : inode.sector 12 ≠ 0 →
    sectorAt disk' (inode.sector 12).toNat = sectorAt disk (inode.sector 12).toNat) (k : Nat) :
    blocksOf disk' inode k = blocksOf disk inode k := by
  unfold blocksOf
  by_cases htable : inode.sector 12 ≠ 0
  · simp only [tableAt, h htable]
  · simp only [htable, false_and, if_false]

/-- A directory has at most 2940 entries. -/
theorem card_entries_le (s : Kernel) (inode : INode) : (entries s inode).card ≤ 140 * 21 := by
  refine card_bag_le fun k _ => ?_
  unfold entriesAt
  split
  · simp
  · exact card_bag_le fun j _ => slotEntry_card_le _ j

theorem mem_entries : e ∈ entries s inode ↔
    ∃ k < 140, blocksOf s.disk inode k ≠ 0 ∧ ∃ j < 21,
      (ofBlock (sectorAt s.disk (blocksOf s.disk inode k).toNat) j).live = true ∧
      e = ofBlock (sectorAt s.disk (blocksOf s.disk inode k).toNat) j := by
  have hslot : ∀ b j, e ∈ slotEntry b j ↔
      (ofBlock b j).live = true ∧ e = ofBlock b j := by
    intro b j
    unfold slotEntry
    split <;> simp_all
  have hblock : ∀ k, e ∈ entriesAt s.disk inode k ↔ blocksOf s.disk inode k ≠ 0 ∧
      e ∈ blockEntries (sectorAt s.disk (blocksOf s.disk inode k).toNat) := by
    intro k
    unfold entriesAt
    split <;> simp_all
  simp only [entries, mem_bag, hblock, blockEntries, hslot]

namespace DirBlocks

/-- Writing a block of the directory leaves its table as it is. -/
theorem write_blocks_of (h : DirBlocks s inode) (hk : k < 140) (hne : blocksOf s.disk inode k ≠ 0)
    (b : Bytes) (k' : Nat) :
    blocksOf (s.write (blocksOf s.disk inode k) b).disk inode k' = blocksOf s.disk inode k' := by
  refine blocks_of_congr inode (fun _ => ?_) k'
  rw [Kernel.write_disk, sectorAt_blit, if_neg]
  exact fun heq => h.tableNe k hk hne (UInt32.toNat_inj.1 heq).symm

/-- Writing a block of the directory replaces the contents of this block. -/
theorem write_sectorAt (h : DirBlocks s inode) {k' : Nat} (hk : k < 140) (hk' : k' < 140)
    (hne' : blocksOf s.disk inode k' ≠ 0) (b : Bytes) :
    sectorAt (s.write (blocksOf s.disk inode k) b).disk (blocksOf s.disk inode k').toNat =
      if k' = k then clip b else sectorAt s.disk (blocksOf s.disk inode k').toNat := by
  rw [Kernel.write_disk, sectorAt_blit]
  by_cases heq : k' = k
  · rw [if_pos (by rw [heq]), if_pos heq]
  · rw [if_neg fun h' => heq (h.inj k' hk' k hk hne' (UInt32.toNat_inj.1 h')), if_neg heq]

/-- The entries after a block of the directory was written. -/
theorem write_entries (h : DirBlocks s inode) (hk : k < 140) (hne : blocksOf s.disk inode k ≠ 0)
    (b : Bytes) :
    entries (s.write (blocksOf s.disk inode k) b) inode +
        blockEntries (sectorAt s.disk (blocksOf s.disk inode k).toNat) =
      entries s inode + blockEntries b := by
  have hchange := bag_change (f := entriesAt s.disk inode)
    (g := entriesAt (s.write (blocksOf s.disk inode k) b).disk inode) hk fun k' hk' hother => ?_
  · simp only [entriesAt, h.write_blocks_of hk hne, if_neg hne] at hchange
    rw [h.write_sectorAt hk hk hne, if_pos rfl, blockEntries_clip] at hchange
    exact hchange
  · unfold entriesAt
    rw [h.write_blocks_of hk hne]
    by_cases hzero : blocksOf s.disk inode k' = 0
    · rw [if_pos hzero, if_pos hzero]
    · rw [if_neg hzero, if_neg hzero, h.write_sectorAt hk hk' hzero, if_neg hother]

/-- The invariant after a block of the directory was written. -/
theorem write (h : DirBlocks s inode) (hk : k < 140) (hne : blocksOf s.disk inode k ≠ 0)
    (hb : DeadZero b) : DirBlocks (s.write (blocksOf s.disk inode k) b) inode := by
  have hsame := h.write_blocks_of hk hne b
  refine ⟨?_, ?_, h.table, ?_, ?_⟩
  · simp only [hsame]
    exact h.taken
  · simp only [hsame]
    exact h.inj
  · simp only [hsame]
    exact h.tableNe
  · intro k' hk' hne'
    rw [hsame] at hne' ⊢
    rw [h.write_sectorAt hk hk' hne']
    split
    · exact hb.clip
    · exact h.dead k' hk' hne'

end DirBlocks

/-! ## Inserting -/

/-- `d` is an open directory with its inode at `p`, and the directory is well-formed. -/
structure OpenDir (s : Kernel) (d p : Ptr) (inode : INode) : Prop where
  blocks : BlocksOk s.part
  dir : ∃ dir, s.dirs.lookup d = some dir ∧ dir.inode = p
  memory : s.inodes p = some inode
  contents : DirOk s inode

/-- What is expected of `sync_dir_entry`: if it returns true, the entry was added once, nothing else
has changed, and the directory is well-formed. -/
def InsertsExactly (s : Kernel) (d p : Ptr) (inode : INode) (e : DirEntry) : Prop :=
  ∀ last, syncDirEntry d e s = .done true last →
    ∃ inode', last.inodes p = some inode' ∧ entries last inode' = e ::ₘ entries s inode ∧
      inode'.iSize.toNat = inode.iSize.toNat + 24 ∧ DirOk last inode'

/-- There is a free slot in a direct block, and no block is missing before it. -/
def HasRoom (s : Kernel) (inode : INode) : Prop :=
  ∃ k < 12, (∀ k' ≤ k, inode.sector k' ≠ 0) ∧
    ∃ j < 21, (ofBlock (sectorAt s.disk (inode.sector k).toNat) j).live = false

/-- The directory cannot get a new block: there is no free block, or only one where two are needed,
since one of them would become the indirect table. -/
def CannotGrow (s : Kernel) (inode : INode) : Prop :=
  s.part.blockBitmap.free = 0 ∨
    s.part.blockBitmap.free = 1 ∧ ∀ k < 12, inode.sector k ≠ 0

theorem BlockFull.live {lba : UInt32} (h : BlockFull s lba) (hj : j < 21) :
    (ofBlock (sectorAt s.disk lba.toNat) j).live = true :=
  live_eq_true.2 (((find_free_is_search _).eq_none_iff 21 0).1 h.2 j (Nat.zero_le _) (by omega))

/-- Blocks that are full up to one that is missing have no room. -/
theorem not_has_room (hfull : ∀ k' < k, BlockFull s (inode.sector k'))
    (hunused : k < 12 → inode.sector k = 0) : ¬HasRoom s inode := by
  intro ⟨k', hk', hused, j, hj, hdead⟩
  by_cases hlt : k' < k
  · exact Bool.noConfusion (hdead.symm.trans ((hfull k' hlt).live hj))
  · exact hused k (by omega) (hunused (by omega))

theorem DirOk.ready (h : DirOk s inode) (hb : BlocksOk s.part) : DirReady s inode := by
  refine ⟨UInt32.toNat_inj.1 ?_, fun k hk => ?_, fun i hi hfree => ?_⟩
  · rw [UInt32.toNat_mod, h.size]
    exact Nat.mul_mod_right ..
  · by_cases hzero : inode.sector k = 0
    · rw [hzero]
      exact Nat.zero_le _
    · rw [← blocks_of_lt s.disk inode hk] at hzero ⊢
      exact (h.taken k (by omega) hzero).in_range
  · rw [← block_addr_toNat hb.areas hi]
    exact hb.inRange i hi hfree

/-- `sync_dir_entry` on a well-formed directory. -/
theorem OpenDir.sync_spec (h : OpenDir s d p inode) (he : e.live = true) :
    wp never (syncDirEntry d e) s (EntrySynced s p inode e) := by
  obtain ⟨dir, hdir, rfl⟩ := h.dir
  refine wp_mono (sync_dir_entry_spec h.blocks.areas (live_eq_true.1 he)
    (.inr ⟨dir, inode, hdir, h.memory, h.contents.ready h.blocks⟩)) ?_
  intro r last ⟨dir', inode', hdir', hinode', hsynced⟩
  obtain rfl : dir = dir' := Option.some.inj (hdir.symm.trans hdir')
  obtain rfl : inode = inode' := Option.some.inj (h.memory.symm.trans hinode')
  exact hsynced

/-- `sync_dir_entry` fails exactly if there is no room and no way to make some. -/
theorem EntrySynced.failed_iff {r : Bool} (h : EntrySynced s p inode e r last) :
    r = false ↔ ¬HasRoom s inode ∧ CannotGrow s inode := by
  have hfree := s.part.blockBitmap.free_eq_zero_iff
  cases h with
  | placed k j hk hfull hused hslot hr hlast =>
    obtain ⟨-, hj, hdead⟩ := (find_free_is_search _).eq_some 21 0 hslot
    refine iff_of_false (by simp [hr]) fun h => h.1 ⟨k, hk, fun k' hk' => ?_, j, by omega,
      live_eq_false.2 hdead⟩
    rcases Nat.lt_or_eq_of_le hk' with hlt | rfl
    · exact (hfull k' hlt).1
    · exact hused
  | added k i hk hfull hunused hscan hr hlast =>
    refine iff_of_false (by simp [hr]) ?_
    intro ⟨_, hgrow⟩
    rcases hgrow with hnone | ⟨-, hall⟩
    · exact absurd (hscan.symm.trans (hfree.1 hnone)) (by simp)
    · exact hall k hk hunused
  | refused k hk hfull hunused hscan hr hlast =>
    refine iff_of_true hr ⟨not_has_room hfull fun hlt => ?_, .inl (hfree.2 hscan)⟩
    simpa [directBlocks, hlt] using hunused
  | tabled i i' hfull hscan hscan' hr hlast =>
    have hfirst := s.part.blockBitmap.free_bitmap_set hscan
    have hsecond := (bitmapSet s.part.blockBitmap i true).free_bitmap_set hscan'
    refine iff_of_false (by simp [hr]) ?_
    intro ⟨_, hgrow⟩
    rcases hgrow with hnone | ⟨hone, -⟩
    · omega
    · omega
  | lost i hfull hscan hscan' hr hlast =>
    have hfirst := s.part.blockBitmap.free_bitmap_set hscan
    have hsecond := (bitmapSet s.part.blockBitmap i true).free_eq_zero_iff.2 hscan'
    refine iff_of_true hr ⟨not_has_room hfull fun h => absurd h (by omega), .inr ⟨by omega, ?_⟩⟩
    exact fun k hk => (hfull k hk).1

/-- A failed `sync_dir_entry` found no free block, or it took the only one and cleared its bit in
memory again. -/
theorem EntrySynced.of_failed (h : EntrySynced s p inode e false last) :
    bitmapScan s.part.blockBitmap 1 = none ∧ last = s ∨
      ∃ i, bitmapScan s.part.blockBitmap 1 = some i ∧
        last = ((s.takeBlock i).setBlockBit i false).setInode p (inode.setSector 12 0) := by
  cases h with
  | refused k hk hfull hunused hscan hr hlast => exact .inl ⟨hscan, hlast⟩
  | lost i hfull hscan hscan' hr hlast => exact .inr ⟨i, hscan, hlast⟩
  | placed | added | tabled => contradiction

theorem DirOk.size_add (h : DirOk s inode) : (inode.iSize + 24).toNat = inode.iSize.toNat + 24 := by
  have hcard := card_entries_le s inode
  rw [UInt32.toNat_add, h.size]
  change (_ + 24) % _ = _
  omega

/-- An entry that is put into a free slot is added to the directory. -/
theorem DirOk.placed (h : DirOk s inode) (he : e.live = true) (hk : k < 12)
    (hused : inode.sector k ≠ 0)
    (hfree : findFree (sectorAt s.disk (inode.sector k).toNat) 21 0 = some j)
    (hlast : last = (s.write (inode.sector k) (blit
      (sectorAt s.disk (inode.sector k).toNat) (24 * j) e.bytes dirEntrySize)).setInode p
      { inode with iSize := inode.iSize + 24 }) :
    entries last { inode with iSize := inode.iSize + 24 } = e ::ₘ entries s inode ∧
      DirOk last { inode with iSize := inode.iSize + 24 } := by
  obtain ⟨-, hj, hdead⟩ := (find_free_is_search _).eq_some 21 0 hfree
  rw [← blocks_of_lt s.disk inode hk] at hused hdead hlast
  have hzero := h.dead k (by omega) hused
  generalize hb : blit (sectorAt s.disk (blocksOf s.disk inode k).toNat) (24 * j) e.bytes
    dirEntrySize = b at hlast
  have hput : blockEntries b =
      e ::ₘ blockEntries (sectorAt s.disk (blocksOf s.disk inode k).toNat) := by
    rw [← hb]
    exact blockEntries_put (by omega) (live_eq_false.2 hdead) he
  have hwrite := h.write_entries (by omega) hused b
  rw [hput, Multiset.add_cons, ← Multiset.cons_add, add_left_inj] at hwrite
  subst hlast
  have hok := h.write (by omega) hused (hb ▸ hzero.put he j)
  refine ⟨hwrite, ⟨hok.taken, hok.inj, hok.table, hok.tableNe, hok.dead⟩, ?_⟩
  change (inode.iSize + 24).toNat = 24 * (entries (s.write _ b) inode).card
  rw [h.size_add, h.size, hwrite, Multiset.card_cons, Nat.mul_succ]

/-- `sync_dir_entry` adds a live entry to a well-formed directory once, and leaves it well-formed,
exactly when there is a free slot in a direct block before the first missing one, or when there are
too few free blocks to make a new one. -/
theorem inserts_exactly_iff {s : Kernel} {d p : Ptr} {inode : INode} {e : DirEntry}
    (hopen : OpenDir s d p inode) (he : e.live = true) :
    InsertsExactly s d p inode e ↔ HasRoom s inode ∨ CannotGrow s inode := by
  obtain ⟨r, last, hdone, hsynced⟩ := wp_never_iff.1 (hopen.sync_spec he)
  have hfree := s.part.blockBitmap.free_eq_zero_iff
  -- a new block gets the entry twice
  have htwice : ∀ inode' : INode, last.inodes p = some inode' → r = true →
      inode'.iSize = inode.iSize + 48 → ¬InsertsExactly s d p inode e := by
    intro inode' hinode' hr hsize hexact
    subst hr
    obtain ⟨inode'', hinode'', -, hsize'', -⟩ := hexact last hdone
    obtain rfl : inode' = inode'' := Option.some.inj (hinode'.symm.trans hinode'')
    rw [hsize, UInt32.toNat_add] at hsize''
    change (_ + 48) % _ = _ at hsize''
    omega
  have hfails : r = false → InsertsExactly s d p inode e := by
    intro hr last' hdone'
    rw [hdone, hr] at hdone'
    exact absurd hdone' (by simp)
  have hfailed := hsynced.failed_iff
  cases hsynced with
  | placed k j hk hfull hused hslot hr hlast =>
    obtain ⟨hadd, hok⟩ := hopen.contents.placed he hk hused hslot hlast
    refine iff_of_true (fun last' hdone' => ?_) (.inl ⟨k, hk, fun k' hk' => ?_, j, ?_⟩)
    · rw [hdone] at hdone'
      injection hdone' with _ hsame
      subst hsame
      refine ⟨_, ?_, hadd, hopen.contents.size_add, hok⟩
      rw [hlast]
      exact Kernel.setInode_same ..
    · rcases Nat.lt_or_eq_of_le hk' with hlt | rfl
      · exact (hfull k' hlt).1
      · exact hused
    · obtain ⟨-, hj, hdead⟩ := (find_free_is_search _).eq_some 21 0 hslot
      exact ⟨by omega, live_eq_false.2 hdead⟩
  | added k i hk hfull hunused hscan hr hlast =>
    refine iff_of_false (htwice _ (by rw [hlast]; exact Kernel.setInode_same ..) hr rfl) ?_
    rintro (hroom | hnone | ⟨-, hall⟩)
    · exact not_has_room hfull (fun _ => hunused) hroom
    · exact absurd (hscan.symm.trans (hfree.1 hnone)) (by simp)
    · exact hall k hk hunused
  | refused k hk hfull hunused hscan hr hlast =>
    exact iff_of_true (hfails hr) (.inr (hfailed.1 hr).2)
  | tabled i i' hfull hscan hscan' hr hlast =>
    refine iff_of_false (htwice _ (by rw [hlast]; exact Kernel.setInode_same ..) hr rfl) ?_
    have hfirst := s.part.blockBitmap.free_bitmap_set hscan
    have hsecond := (bitmapSet s.part.blockBitmap i true).free_bitmap_set hscan'
    rintro (hroom | hnone | ⟨hone, -⟩)
    · exact not_has_room hfull (by omega) hroom
    · omega
    · omega
  | lost i hfull hscan hscan' hr hlast =>
    exact iff_of_true (hfails hr) (.inr (hfailed.1 hr).2)

/-- A kernel with one open directory, whose first blocks are in use. -/
def dirKernel (used : UInt8) (disk : Bytes) (inode : INode) : Kernel :=
  { fileKernel inode with part := bitsPartition used 0, disk := disk, dirs := [(5, ⟨2, 0⟩)] }

/-- A directory that has no blocks but the blocks `ks` is well-formed if these are. -/
theorem dir_kernel_open {used : UInt8} (ks : List Nat) (hroot : used.toBitVec.getLsbD 0 = true)
    (hks : ∀ k < 140, k ∉ ks → blocksOf disk inode k = 0)
    (htaken : ∀ k ∈ ks, Taken (bitsPartition used 0) (blocksOf disk inode k))
    (htable : inode.sector 12 ≠ 0 → Taken (bitsPartition used 0) (inode.sector 12))
    (hnodup : (inode.sector 12 :: ks.map (blocksOf disk inode)).Nodup)
    (hdead : ∀ k ∈ ks, DeadZero (sectorAt disk (blocksOf disk inode k).toNat))
    (hsize : inode.iSize.toNat = 24 * (bag 140 (entriesAt disk inode)).card) :
    OpenDir (dirKernel used disk inode) 5 2 inode := by
  have hmem : ∀ k < 140, blocksOf disk inode k ≠ 0 → k ∈ ks := by
    intro k hk hne
    by_contra hnot
    exact hne (hks k hk hnot)
  obtain ⟨hother, hinj⟩ := List.nodup_cons.1 hnodup
  refine ⟨bits_partition_blocks_ok 0 hroot, ⟨_, rfl, rfl⟩, rfl, ⟨?_, ?_, htable, ?_, ?_⟩, hsize⟩
  · exact fun k hk hne => htaken k (hmem k hk hne)
  · intro j hj k hk hne heq
    exact List.inj_on_of_nodup_map hinj (hmem j hj hne) (hmem k hk (heq ▸ hne)) heq
  · intro k hk hne heq
    exact hother (heq ▸ List.mem_map_of_mem (hmem k hk hne))
  · exact fun k hk hne => hdead k (hmem k hk hne)

/-- The inode of a directory with one block. -/
def oneBlockDir (size : UInt32) : INode :=
  { (inodeInit 1).setSector 0 676 with iSize := size, iOpenCnts := 1 }

/-- An entry for a regular file. -/
def newEntry : DirEntry := ⟨fun _ => 97, 7, 1⟩

/-- A disk with a block whose slots all hold an entry. -/
def fullBlock : Bytes := fun i => if 512 * 676 ≤ i ∧ i < 512 * 676 + 504 then 1 else 0

theorem one_block_open {size : UInt32} (hdead : DeadZero (sectorAt disk 676))
    (hsize : size.toNat = 24 * (bag 140 (entriesAt disk (oneBlockDir size))).card) :
    OpenDir (dirKernel 3 disk (oneBlockDir size)) 5 2 (oneBlockDir size) := by
  have hblock : ∀ k, blocksOf disk (oneBlockDir size) k = blocksOf (fun _ => 0) (oneBlockDir 0) k :=
    blocks_of_congr (oneBlockDir size) fun h => absurd rfl h
  have hzero : blocksOf disk (oneBlockDir size) 0 = 676 := rfl
  refine dir_kernel_open [0] (by decide) ?_ ?_ (fun h => absurd rfl h) ?_ ?_ hsize
  · simp only [hblock]
    decide +kernel
  · simp only [List.mem_singleton, forall_eq, hzero]
    exact ⟨1, by decide, by decide, by decide, by decide⟩
  · exact List.nodup_cons.2 ⟨show (0 : UInt32) ∉ [676] by decide, List.nodup_singleton _⟩
  · simp only [List.mem_singleton, forall_eq]
    exact hdead

theorem inserts_exactly_iff_room :
    InsertsExactly (dirKernel 3 (fun _ => 0) (oneBlockDir 0)) 5 2 (oneBlockDir 0) newEntry :=
  (inserts_exactly_iff (one_block_open (fun _ _ _ _ _ => by simp [sectorAt, sectorsAt])
    (by decide +kernel)) (by decide)).2 (.inl ⟨0, by decide, by decide, 0, by decide, by decide⟩)

/-- A directory with one block, whose 21 slots are in use, gets a new entry. Two entries are there
more afterwards. -/
theorem new_block_gets_entry_twice :
    OpenDir (dirKernel 3 fullBlock (oneBlockDir 504)) 5 2 (oneBlockDir 504) ∧
      newEntry.live = true ∧
      newEntry ∉ entries (dirKernel 3 fullBlock (oneBlockDir 504)) (oneBlockDir 504) ∧
      ∃ last inode', syncDirEntry 5 newEntry (dirKernel 3 fullBlock (oneBlockDir 504)) =
          .done true last ∧ last.inodes 2 = some inode' ∧ inode'.iSize = 552 ∧
        (entries (dirKernel 3 fullBlock (oneBlockDir 504)) (oneBlockDir 504)).card = 21 ∧
        (entries last inode').card = 23 := by
  obtain ⟨r, last, hdone, rfl, inode', hinode, hsize, hcard⟩ :
      ∃ r last, syncDirEntry 5 newEntry (dirKernel 3 fullBlock (oneBlockDir 504)) =
          .done r last ∧ r = true ∧
        ∃ inode' ∈ last.inodes 2, inode'.iSize = 552 ∧ (entries last inode').card = 23 :=
    wp_never_iff.1 (by decide +kernel)
  refine ⟨one_block_open ?_ (by decide +kernel), by decide, ?_, last, inode', hdone, hinode, hsize,
    by decide +kernel, hcard⟩
  · have hlive : ∀ j < 21, (ofBlock (sectorAt fullBlock 676) j).live = true := by decide
    intro j hj hdead
    exact Bool.noConfusion (hdead.symm.trans (hlive j hj))
  · have hother : ∀ j < 21, (ofBlock (sectorAt fullBlock 676) j).iNo ≠ 7 := by decide
    have hone : ∀ k < 140, blocksOf fullBlock (oneBlockDir 504) k ≠ 0 → k = 0 := by decide +kernel
    rw [mem_entries]
    intro ⟨k, hk, hne, j, hj, _, heq⟩
    obtain rfl := hone k hk hne
    exact hother j hj (congrArg DirEntry.iNo heq).symm

end LosKernel
