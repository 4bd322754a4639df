import LosKernel.Fs.Calls
import LosKernel.Fs.FileAppend

/-!
# The buffers of inode transfers

`inode_sync` and `inode_delete` transfer one sector, or two when the record straddles a boundary,
through a buffer of the caller: `file_write` passes a buffer of one block, the other callers pass
two sectors. `io_sites` shows the calls in the functions, and `inode_io_fits_iff` says which
transfers fit.
-/

namespace LosKernel

/-- The functions that transfer an inode. -/
inductive IoSite where
  | fileWrite
  | fileCreate
  | sysMkdir
  | deleteDirEntry
  | inodeRelease
  deriving DecidableEq, Repr

namespace IoSite

/-- The size of the buffer `io_buf` that the function passes on. -/
def ioBufSize : IoSite → Nat
  | fileWrite => 512
  | fileCreate | sysMkdir | deleteDirEntry | inodeRelease => 1024

/-- The transfer of an inode: `inode_release` calls `inode_delete`, the others `inode_sync`. -/
def transfer (site : IoSite) (inode : INode) : Call Unit :=
  match site with
  | inodeRelease => inodeDelete inode.iNo site.ioBufSize
  | _ => inodeSync inode site.ioBufSize

/-- The inode number that the transfer locates. The local variable of `inode_sync` has
eight bits. -/
def located (site : IoSite) (n : UInt32) : UInt32 :=
  match site with
  | inodeRelease => n
  | _ => n % 256

/-- The bytes that are read and written for inode `n`. -/
def transferred (site : IoSite) (sb : SuperBlock) (n : UInt32) : Nat :=
  512 * (inodePosition sb (site.located n)).secCnt

end IoSite

/-- Where the functions transfer inodes. -/
structure IoSites : Prop where
  fileWrite : fileWrite =
    fileWriteWith (fun lba buf => ideWrite lba buf 1) IoSite.fileWrite.transfer
  fileCreate : ∀ parentDir inodeNo newFileInode ioBuf fdIdx,
    finishCreate parentDir inodeNo newFileInode ioBuf fdIdx = do
      let parentInode ← dirInode parentDir
      IoSite.fileCreate.transfer parentInode
      let inode ← derefInode newFileInode
      IoSite.fileCreate.transfer inode
      bitmapSync inodeNo .inode
      Prog.update fun s => { s with openInodes := newFileInode :: s.openInodes }
      let inode ← derefInode newFileInode
      storeInode newFileInode { inode with iOpenCnts := 1 }
      sysFree ioBuf
      pcbFdInstall fdIdx
  sysMkdir : ∀ dirname inodeNo newDirInode parentDir ioBuf,
    mkdirEnter dirname inodeNo newDirInode parentDir ioBuf = do
      let e ← createDirEntry dirname inodeNo .directory
      if ← syncDirEntry parentDir e then
        let parentInode ← dirInode parentDir
        IoSite.sysMkdir.transfer parentInode
        IoSite.sysMkdir.transfer newDirInode
        bitmapSync inodeNo .inode
        sysFree ioBuf
        dirClose parentDir
        pure 0
      else
        inodeBitmapSet inodeNo false
        mkdirFail parentDir ioBuf
  deleteDirEntry : ∀ p blockIdx blockLba b scan idx,
    deleteFound p blockIdx blockLba b scan idx = do
      assert (1 ≤ scan.dirEntryCnt)
      dropEntry p blockIdx blockLba b scan idx
      let s ← Prog.state
      let inode ← derefInode p
      assert (s.part.sb.dirEntrySize ≤ inode.iSize)
      let inode := { inode with iSize := inode.iSize - s.part.sb.dirEntrySize }
      storeInode p inode
      IoSite.deleteDirEntry.transfer inode
  inodeRelease : ∀ inodeNo, inodeRelease inodeNo = do
    let inodeToDel ← inodeOpen inodeNo
    let inode ← derefInode inodeToDel
    assert (inode.iNo = inodeNo)
    let allBlocks ← allBlocksOf inode
    let blockCnt := if inode.sector 12 ≠ 0 then 140 else 12
    Prog.when (inode.sector 12 ≠ 0) (releaseBlock (inode.sector 12))
    releaseBlocks allBlocks blockCnt 0
    inodeBitmapSet inodeNo false
    bitmapSync inodeNo .inode
    let ioBuf ← nonNull (← sysMalloc IoSite.inodeRelease.ioBufSize)
    IoSite.inodeRelease.transfer { inode with iNo := inodeNo }
    sysFree ioBuf
    inodeClose inodeToDel

theorem io_sites : IoSites where
  fileWrite := rfl
  fileCreate _ _ _ _ _ := rfl
  sysMkdir _ _ _ _ _ := rfl
  deleteDirEntry _ _ _ _ _ _ := rfl
  inodeRelease _ := rfl

/-! ## Which transfers fit -/

/-- The record of inode `n` lies in one sector. The offset in the sector depends on the low eight
bits of `n` only, since 256 records fill 38 sectors. -/
theorem one_sector_iff_offset (n : UInt32) : OneSector n ↔ 76 * n.toNat % 512 ≤ 436 := by
  have hsplit : 76 * n.toNat = 76 * (n.toNat % 256) + 512 * (38 * (n.toNat / 256)) := by omega
  rw [OneSector, hsplit, Nat.add_mul_mod_self_left]

/-- The buffer of every function holds the sectors transferred for inode `n`, and the transfer
returns, except for `file_write` and an inode whose record straddles two sectors. -/
theorem inode_io_fits_iff (site : IoSite) {n : UInt32} (hn : n.toNat < 4096) :
    (IoSites ∧ (∀ sb, site.transferred sb n ≤ site.ioBufSize) ∧
      ∀ s inode, TableLaidOut s.part → inode.iNo = n →
        ∃ last, site.transfer inode s = .done () last) ↔
    (site = .fileWrite → 76 * n.toNat % 512 ≤ 436) := by
  constructor
  · intro ⟨_, hfits, _⟩ hsite
    subst hsite
    exact (one_sector_iff_offset n).1 ((one_sector_iff tablePartition.sb n).2 (hfits _))
  · intro hone
    have hfits : ∀ sb, site.transferred sb n ≤ site.ioBufSize := by
      intro sb
      cases site with
      | fileWrite => exact (one_sector_iff sb n).1 ((one_sector_iff_offset n).2 (hone rfl))
      | fileCreate | sysMkdir | deleteDirEntry | inodeRelease => exact sec_cnt_le_two_sectors _
    refine ⟨io_sites, hfits, fun s inode hl hinode => ?_⟩
    subst hinode
    have hbuf := hfits s.part.sb
    cases site with
    | inodeRelease => exact ⟨_, inode_delete_run hl hn⟩
    | fileWrite | fileCreate | sysMkdir | deleteDirEntry => exact ⟨_, inode_sync_run hl hbuf⟩

/-- Inode 6 straddles two sectors; the buffer of `sys_mkdir` holds both. -/
theorem inode_io_fits_mkdir : (6 : UInt32).toNat < 4096 ∧
    ∀ sb, IoSite.sysMkdir.transferred sb 6 ≤ IoSite.sysMkdir.ioBufSize :=
  ⟨by decide, ((inode_io_fits_iff .sysMkdir (by decide)).2 (nomatch ·)).2.1⟩

/-- Twenty bytes are written to a file with inode number 6: two sectors go through the buffer of
one, and `file_write` writes past its end. -/
theorem file_write_overruns_io_buf :
    (∀ sb, IoSite.fileWrite.transferred sb 6 = 1024) ∧ IoSite.fileWrite.ioBufSize = 512 ∧
      fileWrite 3 UInt8.ofNat 20 (fileKernel { shortFile with iNo := 6 }) = .stop .badAccess := by
  exact ⟨fun _ => rfl, rfl, rfl⟩

end LosKernel
