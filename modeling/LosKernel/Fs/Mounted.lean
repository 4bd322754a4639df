import LosKernel.Fs.CleanTable
import LosKernel.Fs.FormatLayout

/-!
# A freshly mounted partition

What a kernel finds on a partition that it has just formatted: the areas of the partition, the
records of the inode table, and the root directory as the only open inode.
-/

namespace LosKernel

open Prog

variable {startLba secCnt : UInt32} {s : Kernel}

section

variable (hlo : 1200 < secCnt.toNat) (hdisk : startLba.toNat + secCnt.toNat ≤ maxLba + 1)
  (disk : Bytes)

include hlo hdisk

theorem formatted_areas :
    Areas (mountedPartition (formattedDisk disk startLba secCnt) startLba secCnt) := by
  have hmax : maxLba = 163839 := rfl
  have hhi : secCnt.toNat ≤ 2 ^ 21 := by omega
  have hwrap : startLba.toNat + secCnt.toNat ≤ 2 ^ 32 := by omega
  obtain ⟨h1, h2, h3, hbb, hib, hit, hds⟩ := format_super_block_toNat hlo hhi hwrap
  rw [mounted_formatted hlo hhi hwrap]
  refine ⟨⟨?_, ?_, ?_⟩, rfl, ?_, ?_, ?_, ?_, ?_, ?_, ?_⟩ <;>
    simp only [hbb, format_block_bitmap_sects, format_inode_bitmap_sects, UInt32.reduceToNat] <;>
    omega

/-- The inode table of a formatted partition holds the inode of the root directory and zeros. -/
theorem formatted_table (i : Nat) (hi : i < 512 * 608) : formattedDisk disk startLba secCnt
      (512 * (formatSuperBlock startLba secCnt).inodeTableLba.toNat + i) =
      Bytes.blit (fun _ => 0) 0 (rootInode (formatSuperBlock startLba secCnt)).bytes
        inodeSize i := by
  have hmax : maxLba = 163839 := rfl
  obtain ⟨h1, h2, h3, hbb, hib, hit, hds⟩ :=
    @format_super_block_toNat startLba secCnt hlo (by omega) (by omega)
  unfold formattedDisk
  simp only [format_inode_table_sects, UInt32.reduceToNat]
  rw [Bytes.blit_outside (by omega), Bytes.blit_inside (by omega) (by omega),
    Nat.add_sub_cancel_left]

theorem formatted_record {n : Nat} (hn : n < 4096) :
    INode.ofBytes (formattedDisk disk startLba secCnt)
      (inodeOffset (formatSuperBlock startLba secCnt) n) =
      if n = 0 then rootInode (formatSuperBlock startLba secCnt) else inodeInit 0 := by
  have hbyte : ∀ i < inodeSize, formattedDisk disk startLba secCnt
      (inodeOffset (formatSuperBlock startLba secCnt) n + i) =
      Bytes.blit (fun _ => 0) 0 (rootInode (formatSuperBlock startLba secCnt)).bytes
        inodeSize (inodeSize * n + i) := by
    intro i hi
    unfold inodeOffset
    unfold inodeSize at *
    rw [Nat.add_assoc, formatted_table hlo hdisk disk _ (by omega)]
    rfl
  split
  · rename_i hzero
    subst hzero
    have hroot : INode.ofBytes (Bytes.blit (fun _ => 0) 0
        (rootInode (formatSuperBlock startLba secCnt)).stored.bytes inodeSize) 0 =
        rootInode (formatSuperBlock startLba secCnt) := of_bytes_stored _
    rw [← hroot]
    refine INode.of_bytes_congr fun i hi => ?_
    rw [hbyte i hi]
    rfl
  · have hzero : INode.ofBytes (fun _ => 0) 0 = inodeInit 0 := by
      have hword : ∀ off, Bytes.word (fun _ => 0) off = 0 := fun off =>
        Bytes.word_eq_zero fun _ _ => rfl
      simp [INode.ofBytes, hword, inodeInit]
    rw [← hzero]
    refine INode.of_bytes_congr fun i hi => ?_
    rw [hbyte i hi, Bytes.blit_outside (by unfold inodeSize; omega)]

end

/-- The kernel after it formatted a partition and mounted it. The root directory is open at `p`. -/
def mountedKernel (s : Kernel) (startLba secCnt : UInt32) (heap : Heap) (p : Ptr) : Kernel :=
  { s with
    heap := heap
    disk := formattedDisk s.disk startLba secCnt
    part := mountedPartition (formattedDisk s.disk startLba secCnt) startLba secCnt
    openInodes := [p]
    inodes := Function.update s.inodes p
      (some { rootInode (formatSuperBlock startLba secCnt) with iOpenCnts := 1 })
    dirs := (rootDir, ⟨p, 0⟩) :: s.dirs
    fileTable := fun idx => { s.fileTable idx with fdInode := none } }

/-- What formatting and mounting leave. -/
theorem format_mount_root_spec (hlo : 1200 < secCnt.toNat)
    (hdisk : startLba.toNat + secCnt.toNat ≤ maxLba + 1) :
    wp any (do partitionFormat startLba secCnt; mountRoot startLba secCnt) s
      fun _ last => ∃ heap p, s.heap.requests < p ∧ p ≤ heap.requests ∧
        last = mountedKernel s startLba secCnt heap p := by
  have hmax : maxLba = 163839 := rfl
  have hroot : (mountedPartition (formattedDisk s.disk startLba secCnt) startLba secCnt).sb =
      formatSuperBlock startLba secCnt :=
    super_block_formatted hlo (by omega) (by omega) s.disk
  have hareas := formatted_areas hlo hdisk s.disk
  refine wp_seq (partition_format_spec (.inl fun _ => trivial)) ?_
  rintro _ s1 ⟨heap1, hheap1, rfl⟩
  refine wp_seq (mount_partition_spec (.inl fun _ => trivial)) ?_
  intro _ s2 ⟨heap2, hheap2, hs2⟩
  dsimp only at hheap2 hs2
  have hpart : s2.part =
      mountedPartition (formattedDisk s.disk startLba secCnt) startLba secCnt := by rw [hs2]
  simp only [openRootDir, wp_bind, wp_state]
  refine wp_mono (inode_open_spec (.inl fun _ => trivial)) fun p mid hopen => ?_
  cases hopen with
  | hit inode heap hfind hinode hheap hlast => simp [findOpenInode, hs2] at hfind
  | miss heap hfind hn hnew hheap hlast =>
    have hreq : s2.heap.requests = heap2.requests := by rw [hs2]
    refine ⟨heap, p, by omega, hheap, ?_⟩
    have hno : s2.part.sb.rootInodeNo = 0 := by rw [hpart, hroot]; rfl
    have hloaded : inodeLoaded s2 s2.part.sb.rootInodeNo =
        rootInode (formatSuperBlock startLba secCnt) := by
      have hrecord := formatted_record hlo hdisk s.disk (n := 0) (by decide)
      rw [if_pos rfl] at hrecord
      have hdisk2 : s2.disk = formattedDisk s.disk startLba secCnt := by rw [hs2]
      rw [inode_loaded_eq_record (hpart ▸ hareas.table) hn, hno, inodeRecord, hpart, hroot,
        hdisk2, UInt32.toNat_zero, hrecord]
    rw [hlast, hloaded]
    simp only [pushInode, mountedKernel, hs2]

theorem root_inode_addressed (sb : SuperBlock) : Addressed sb (rootInode sb) := by
  have hroot : Addressed sb ((inodeInit 0).setSector 0 sb.dataStartLba) :=
    (addressed_init sb 0).set_sector (by decide) (.inr le_rfl)
  exact hroot

/-- The inode table of a freshly mounted partition is clean. -/
theorem mounted_clean {heap : Heap} {p : Ptr} (hlo : 1200 < secCnt.toNat)
    (hdisk : startLba.toNat + secCnt.toNat ≤ maxLba + 1) (hinodes : ∀ q, s.inodes q = none) :
    TableClean (mountedKernel s startLba secCnt heap p) := by
  have hmax : maxLba = 163839 := rfl
  have hsb : (mountedKernel s startLba secCnt heap p).part.sb = formatSuperBlock startLba secCnt :=
    super_block_formatted hlo (by omega) (by omega) s.disk
  have hroot := root_inode_addressed (formatSuperBlock startLba secCnt)
  refine ⟨formatted_areas hlo hdisk s.disk, fun n hn => ?_, fun q inode hinode => ?_⟩
  · have hdisk' : (mountedKernel s startLba secCnt heap p).disk =
        formattedDisk s.disk startLba secCnt := by simp only [mountedKernel]
    rw [inodeRecord, hsb, hdisk', formatted_record hlo hdisk s.disk hn]
    split
    · exact ⟨rfl, hroot⟩
    · exact ⟨rfl, addressed_init _ _⟩
  · rw [hsb]
    by_cases hq : q = p
    · subst hq
      obtain rfl : { rootInode (formatSuperBlock startLba secCnt) with iOpenCnts := 1 } =
          inode := by
        simpa [mountedKernel] using hinode
      exact hroot
    · simp [mountedKernel, Function.update_of_ne hq, hinodes] at hinode

theorem booted_mounted :
    ∃ heap p, 1 < p ∧ Kernel.booted = mountedKernel Kernel.start 63 5000 heap p := by
  obtain ⟨heap, p, hp, -, hbooted⟩ := wp_any_iff.1
    (format_mount_root_spec (by decide) (by decide)) _ _ booted_run
  exact ⟨heap, p, hp, hbooted⟩

end LosKernel
