import LosKernel.Fs.DirEntries
import LosKernel.Fs.Opening

/-!
# The inode table stays clean

`inode_open` takes the flag `write_deny` of an inode from the disk. `inode_sync` stores it as
`false`, and all other writes go to the bitmaps and to the data area. `TableClean` says that no
record has the flag set, and that block addresses lie in the data area, which keeps the writes out
of the table.
-/

namespace LosKernel

open Prog

variable {p d ioBuf : Ptr} {n lba flag : UInt32} {inode : INode} {e : DirEntry} {s last : Kernel}
  {value : Bool} {j : Nat}

/-- No record of the inode table denies writing, and no block address lies outside the data area. -/
structure TableClean (s : Kernel) : Prop where
  areas : Areas s.part
  records : ∀ n < 4096, (inodeRecord s n).writeDeny = false ∧
    Addressed s.part.sb (inodeRecord s n)
  cached : ∀ p inode, s.inodes p = some inode → Addressed s.part.sb inode

theorem Addressed.set_sector {sb : SuperBlock} (h : Addressed sb inode) {k : Nat} (hk : k < 13)
    (hlba : DataAddr sb lba) : Addressed sb (inode.setSector k lba) := by
  intro j
  rw [INode.sector_set_sector _ _ _ hk]
  split
  · exact hlba
  · exact h j

theorem addressed_init (sb : SuperBlock) (n : UInt32) : Addressed sb (inodeInit n) := by
  intro k
  left
  unfold INode.sector
  split <;> rfl

namespace TableClean

variable (h : TableClean s)

include h

theorem of_table (hareas : Areas last.part) (hsb : last.part.sb = s.part.sb)
    (hdisk : ∀ i, 512 * s.part.sb.inodeTableLba.toNat ≤ i →
      i < 512 * (s.part.sb.inodeTableLba.toNat + 608) → last.disk i = s.disk i)
    (hcached : ∀ p inode, last.inodes p = some inode → Addressed s.part.sb inode) :
    TableClean last where
  areas := hareas
  records := by
    intro n hn
    have hsame : inodeRecord last n = inodeRecord s n := by
      unfold inodeRecord
      rw [hsb]
      refine INode.of_bytes_congr fun i hi => hdisk _ ?_ ?_ <;>
        · unfold inodeOffset
          unfold inodeSize at *
          omega
    rw [hsame, hsb]
    exact h.records n hn
  cached := hsb ▸ hcached

theorem of_cache (hdisk : last.disk = s.disk) (hpart : last.part = s.part)
    (hcached : ∀ p inode, last.inodes p = some inode → Addressed s.part.sb inode) :
    TableClean last :=
  h.of_table (hpart ▸ h.areas) (by rw [hpart]) (fun _ _ _ => by rw [hdisk]) hcached

theorem write (hlba : DataAddr s.part.sb lba) (buf : Bytes) : TableClean (s.write lba buf) := by
  have h1 := h.areas.tableArea
  have h2 := h.areas.bootSector
  have h3 := h.areas.blockArea
  have h4 := h.areas.inodeArea
  refine h.of_table h.areas rfl (fun i hlo hhi => Bytes.blit_outside ?_) h.cached
  rcases hlba with rfl | hlba
  · simp
    omega
  · omega

theorem sync_block_bits (hj : j < s.part.sb.blockBitmapSects.toNat) :
    TableClean (s.syncBlockBits j) := by
  have h3 := h.areas.blockArea
  have h4 := h.areas.inodeArea
  exact h.of_table h.areas rfl (fun i hlo hhi => Bytes.blit_outside (by omega)) h.cached

theorem sync_inode_bits (hj : j < s.part.sb.inodeBitmapSects.toNat) :
    TableClean (s.syncInodeBits j) := by
  have h4 := h.areas.inodeArea
  exact h.of_table h.areas rfl (fun i hlo hhi => Bytes.blit_outside (by omega)) h.cached

theorem set_block_bit (i : Nat) (value : Bool) : TableClean (s.setBlockBit i value) :=
  h.of_table (h.areas.setBlockBit i value) rfl (fun _ _ _ => rfl) h.cached

theorem take_block {i : Nat} (hi : i < 8 * s.part.blockBitmap.btmpBytesLen) :
    TableClean (s.takeBlock i) := by
  refine (h.set_block_bit i true).sync_block_bits ?_
  have := h.areas.blockLen
  change i / 4096 < s.part.sb.blockBitmapSects.toNat
  omega

theorem set_inode (hinode : Addressed s.part.sb inode) : TableClean (s.setInode p inode) := by
  refine h.of_cache rfl rfl fun q new hnew => ?_
  by_cases hq : q = p
  · subst hq
    rw [Kernel.setInode_same] at hnew
    exact Option.some.inj hnew ▸ hinode
  · rw [Kernel.setInode_of_ne _ _ hq] at hnew
    exact h.cached q new hnew

theorem store_record {n : Nat} (hinode : Addressed s.part.sb inode) :
    TableClean (storeRecord s n inode.stored.bytes) where
  areas := h.areas
  records := by
    intro m hm
    by_cases hmn : m = n
    · subst hmn
      rw [inode_record_store_same]
      exact ⟨rfl, hinode⟩
    · rw [inode_record_store_ne s _ hmn]
      exact h.records m hm
  cached := h.cached

/-- The step of `inode_sync`. -/
theorem inode_sync (hinode : Addressed s.part.sb inode) :
    wp any (inodeSync inode 1024) s fun _ last => TableClean last := by
  rw [wp_of_done (inode_sync_run h.areas.table (sec_cnt_le_two_sectors _))]
  exact h.store_record hinode

/-- An inode that was loaded is as clean as its record. -/
theorem loaded (hn : n.toNat < 4096) :
    (inodeLoaded s n).writeDeny = false ∧ Addressed s.part.sb (inodeLoaded s n) := by
  rw [inode_loaded_eq_record h.areas.table hn]
  exact h.records n.toNat hn

/-- Only the heap, the handles and the tables of processes and files differ. -/
theorem of_inodes (hdisk : last.disk = s.disk) (hpart : last.part = s.part)
    (hinodes : last.inodes = s.inodes) : TableClean last :=
  h.of_cache hdisk hpart (hinodes ▸ h.cached)

theorem entry_synced {r : Bool} (hinode : s.inodes p = some inode)
    (hsync : EntrySynced s p inode e r last) : TableClean last := by
  have haddr := h.cached p inode hinode
  cases hsync with
  | placed k j hk hfull hused hfree hr hlast =>
    exact hlast ▸ (h.write (haddr k) _).set_inode haddr
  | added k i hk hfull hunused hscan hr hlast =>
    obtain ⟨hi, -, -⟩ := bitmap_scan_one_eq_some _ hscan
    have hdata := block_addr_data h.areas hi
    exact hlast ▸ ((h.take_block hi).write hdata _).set_inode
      (haddr.set_sector (by omega) hdata)
  | refused k hk hfull hunused hscan hr hlast => exact hlast ▸ h
  | tabled i i' hfull hscan hscan' hr hlast =>
    obtain ⟨hi, -, -⟩ := bitmap_scan_one_eq_some _ hscan
    obtain ⟨hi', -, -⟩ := bitmap_scan_one_eq_some _ hscan'
    have hdata := block_addr_data h.areas hi
    have hdata' := block_addr_data h.areas hi'
    have htaken : TableClean ((s.takeBlock i).takeBlock i') := (h.take_block hi).take_block hi'
    exact hlast ▸ ((htaken.write hdata _).write hdata' _).set_inode
      (haddr.set_sector (by omega) hdata)
  | lost i hfull hscan hscan' hr hlast =>
    obtain ⟨hi, -, -⟩ := bitmap_scan_one_eq_some _ hscan
    exact hlast ▸ ((h.take_block hi).set_block_bit i false).set_inode
      (haddr.set_sector (by omega) (.inl rfl))

/-- The step of `sync_dir_entry`. -/
theorem sync_dir_entry (he : e.fType ≠ 0) :
    wp any (syncDirEntry d e) s fun _ last => TableClean last := by
  refine wp_mono (sync_dir_entry_spec h.areas he (.inl fun _ => trivial)) ?_
  intro r last ⟨dir, inode, _, hinode, hsync⟩
  exact h.entry_synced hinode hsync

theorem inode_opened (hopen : InodeOpened s n p last) : TableClean last := by
  cases hopen with
  | hit inode heap hfind hinode hheap hlast =>
    have hset : TableClean (s.setInode p { inode with iOpenCnts := inode.iOpenCnts + 1 }) :=
      h.set_inode (h.cached p inode hinode)
    exact hlast ▸ hset.of_inodes rfl rfl rfl
  | miss heap hfind hn hnew hheap hlast =>
    have hset : TableClean (s.setInode p { inodeLoaded s n with iOpenCnts := 1 }) :=
      h.set_inode (h.loaded hn).2
    exact hlast ▸ hset.of_inodes rfl rfl rfl

theorem dir_held {dir : Option UInt32} (hheld : DirHeld s dir d last) : TableClean last := by
  cases hheld with
  | root hsame =>
    obtain ⟨heap, -, rfl⟩ := hsame
    exact h.of_inodes rfl rfl rfl
  | opened hopened =>
    obtain ⟨p, mid, hopen, -, -, rfl⟩ := hopened
    exact (h.inode_opened hopen).of_inodes rfl rfl rfl

theorem inode_closed (hclose : InodeClosed s p last) : TableClean last := by
  cases hclose with
  | dropped inode heap hinode hcnt hmem hheap hlast =>
    subst hlast
    refine h.of_cache rfl rfl fun q new hnew => ?_
    by_cases hq : q = p
    · simp [dropInode, hq] at hnew
    · exact h.cached q new (by simpa [dropInode, Function.update_of_ne hq] using hnew)
  | kept inode hinode hcnt hlast =>
    exact hlast ▸ h.set_inode (h.cached p inode hinode)

theorem dir_close : wp any (dirClose d) s fun _ last => TableClean last := by
  unfold dirClose
  rw [wp_ite]
  refine ⟨fun _ => h, fun _ => ?_⟩
  simp only [wp_bind, wp_deref_dir, and_any]
  intro e _
  refine wp_mono inode_close_spec fun _ mid hclose => ?_
  exact (h.inode_closed hclose).of_inodes rfl rfl rfl

theorem set_inode_bit (i : Nat) (value : Bool) : TableClean { s with part :=
      { s.part with inodeBitmap := bitmapSet s.part.inodeBitmap i value } } :=
  h.of_table (h.areas.of_bits rfl rfl) rfl (fun _ _ _ => rfl) h.cached

theorem inode_bitmap_set : wp any (inodeBitmapSet n value) s fun _ last => TableClean last := by
  simp only [inodeBitmapSet, wp_bind, wp_access, and_any]
  exact fun _ => h.set_inode_bit _ _

/-- The rollback of `file_create` after the inode was allocated. -/
theorem free_new_inode :
    wp any (do freeInode p; inodeBitmapSet n false; sysFree ioBuf; pure (-1 : Int)) s
      fun _ last => TableClean last := by
  simp only [freeInode, wp_bind, wp_update, wp_sys_free]
  refine wp_mono (inode_bitmap_set (h.of_cache rfl rfl fun q new hnew => ?_))
    fun _ last hlast => hlast.of_inodes rfl rfl rfl
  by_cases hq : q = p
  · simp [hq] at hnew
  · exact h.cached q new (by simpa [Function.update_of_ne hq] using hnew)

theorem finish_create {idx : Nat} (hn : n.toNat < 8 * s.part.inodeBitmap.btmpBytesLen) :
    wp any (finishCreate d n p ioBuf idx) s fun _ last => TableClean last := by
  simp only [finishCreate, dirInode, wp_bind, wp_deref_dir, wp_deref_inode, and_any]
  intro dir hdir parent hparent
  refine wp_mono (wp_and (h.inode_sync (h.cached _ _ hparent)) (keeps_inode_sync parent 1024 s)) ?_
  rintro _ s1 ⟨h1, hframe1⟩ inode hinode
  refine wp_mono (wp_and (h1.inode_sync (h1.cached _ _ hinode)) (keeps_inode_sync inode 1024 s1)) ?_
  rintro _ s2 ⟨h2, hframe2⟩
  have hn2 : n.toNat < 8 * s2.part.inodeBitmap.btmpBytesLen := by
    rwa [hframe2.inode_bitmap_eq, hframe1.inode_bitmap_eq]
  refine wp_sync_inode h2.areas hn2 ?_
  have hsects : n.toNat / 4096 < s2.part.sb.inodeBitmapSects.toNat := by
    have := h2.areas.inodeLen
    omega
  have h3 := h2.sync_inode_bits hsects
  simp only [wp_sys_free, wp_store_inode]
  intro new hnew
  refine wp_mono pcb_fd_install_spec ?_
  rintro r last ⟨_, hlast⟩
  have h4 : TableClean ((s2.syncInodeBits (n.toNat / 4096)).setInode p
      { new with iOpenCnts := 1 }) := h3.set_inode (h3.cached p new hnew)
  exact h4.of_inodes (by rw [hlast]; rfl) (by rw [hlast]; rfl) (by rw [hlast]; rfl)

/-- The step of `file_create`. -/
theorem file_create {name : CStr} :
    wp any (fileCreate d name flag) s fun _ last => TableClean last := by
  unfold fileCreate
  rw [wp_bind, wp_sys_malloc]
  refine ⟨fun _ => ?_, fun _ => h.of_inodes rfl rfl rfl⟩
  rw [wp_bind, wp_inode_bitmap_alloc]
  refine ⟨fun _ => h.of_inodes rfl rfl rfl, fun i hscan => ?_⟩
  obtain ⟨hi, -, -⟩ := bitmap_scan_one_eq_some _ hscan
  have h1 := h.set_inode_bit i true
  have hn : (UInt32.ofNat i).toNat < 8 * s.part.inodeBitmap.btmpBytesLen :=
    Nat.lt_of_le_of_lt (by simpa using Nat.mod_le i _) hi
  simp only [mallocKernalInode, wp_bind, wp_sys_malloc]
  refine ⟨fun _ => ?_, fun _ => ?_⟩
  · simp only [wp_store_inode, getFreeSlotInGlobal, wp_bind, wp_state]
    set p := s.heap.served.requests + 1
    have h2 := h1.set_inode (p := p) (addressed_init _ (UInt32.ofNat i))
    cases findSlot s.fileTable (maxFileOpen - 3) 3 with
    | none =>
      refine free_new_inode ?_
      exact h2.of_inodes rfl rfl rfl
    | some idx =>
      simp only [createDirEntry, wp_bind, wp_assert, and_any, wp_pure]
      intro _
      refine wp_mono (wp_and (sync_dir_entry ?_ ?_) (keeps_sync_dir_entry _ _ _)) ?_
      · exact h2.of_inodes rfl rfl rfl
      · change FileType.regular.code ≠ 0
        decide
      rintro ok s3 ⟨h3, hframe⟩
      rw [wp_ite]
      refine ⟨fun _ => h3.finish_create ?_, fun _ => ?_⟩
      · rw [hframe.inode_bitmap_eq]
        exact hn
      · rw [wp_bind]
        refine free_new_inode ?_
        exact h3.of_inodes rfl rfl rfl
  · refine wp_mono (inode_bitmap_set (h1.of_inodes rfl rfl rfl)) fun _ last hlast => ?_
    exact hlast.of_inodes rfl rfl rfl

theorem file_opened {r : Int} (hopen : FileOpened s n flag r last) : TableClean last := by
  cases hopen with
  | full hr hlast => exact hlast ▸ h
  | denied idx p mid inode hslot hopen hinode hwrite hdeny hr hlast =>
    exact hlast ▸ (h.inode_opened hopen).of_inodes rfl rfl rfl
  | opened idx p mid inode tasks hslot hopen hinode hdeny hinstall hlast =>
    have hmid := h.inode_opened hopen
    have hset : TableClean (mid.setInode p
        { inode with writeDeny := writeFlag flag || inode.writeDeny }) :=
      hmid.set_inode (hmid.cached p inode hinode)
    exact hlast ▸ hset.of_inodes rfl rfl rfl

/-- The step of `sys_open`. -/
theorem sys_open {path : CStr} {flags : UInt32} (hc : CacheOk s) :
    wp any (sysOpen path flags) s fun _ last => TableClean last := by
  simp only [sysOpen, wp_bind, wp_access, wp_assert, and_any, wp_ite]
  refine fun _ => ⟨fun _ => h, fun _ _ => ?_⟩
  refine wp_mono path_depth_cnt_spec ?_
  rintro _ s' ⟨hs, rfl⟩
  rw [hs]
  refine wp_mono (search_file_held hc) ?_
  rintro ⟨n, found⟩ cur ⟨dir, hheld⟩
  have hcur := h.dir_held hheld
  have hfail : wp any (closeAndFail found.parentDir) cur fun _ last => TableClean last := by
    exact wp_seq hcur.dir_close fun _ _ hlast => hlast
  simp only [openFound, wp_ite, wp_bind]
  refine ⟨fun _ => hfail, fun _ => ?_⟩
  refine wp_mono path_depth_cnt_spec ?_
  rintro _ _ ⟨rfl, rfl⟩
  refine ⟨fun _ => hfail, fun _ => ⟨fun _ => hfail, fun _ => ⟨fun _ => hfail, fun _ =>
    ⟨fun _ => ?_, fun _ => wp_mono file_open_spec fun _ _ hopen => hcur.file_opened hopen⟩⟩⟩⟩
  exact wp_mono hcur.file_create fun _ _ hmid =>
    wp_mono hmid.dir_close fun _ _ hlast => hlast

/-- The step of `sys_close`. -/
theorem closed {fd r : Int} (hclose : Closed s fd r last) : TableClean last := by
  cases hclose with
  | ignored hfd hr hlast => exact hlast ▸ h
  | closed task idx p inode mid htask hfd hslot hidx hfile hinode hclose hr hlast =>
    have hset : TableClean (s.setInode p { inode with writeDeny := false }) :=
      h.set_inode (h.cached p inode hinode)
    exact hlast ▸ (hset.inode_closed hclose).of_inodes rfl rfl rfl

end TableClean

end LosKernel
