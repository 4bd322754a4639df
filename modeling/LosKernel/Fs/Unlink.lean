import LosKernel.Fs.DirDelete
import LosKernel.Fs.Handles
import LosKernel.Fs.Release

/-!
# Deleting a file

`sys_unlink` deletes an entry of a directory and releases the inode that the entry names. The two
steps are put together here: what `delete_dir_entry` does to the directory leaves the inode and its
blocks alone (`Spared`), so that `inode_release` gives back what the inode owned before the call.
-/

namespace LosKernel

open Prog hiding update
open Function (update update_of_ne update_self)

variable {s cur last : Kernel} {d p : Ptr} {inode : INode} {n lba : UInt32} {k j : Nat}
  {dir : Option UInt32}

/-! ## What the deletion of an entry leaves alone -/

/-- An inode can be released as before if only handles have changed. -/
theorem ReleaseOk.congr {cnt : Nat} (h : ReleaseOk s n) (hdisk : last.disk = s.disk)
    (hpart : last.part = s.part)
    (hversion : inodeVersion last n = { inodeVersion s n with iOpenCnts := cnt }) :
    ReleaseOk last n ∧ ownedBlocks last.disk (inodeVersion last n) =
      ownedBlocks s.disk (inodeVersion s n) := by
  have howned : ownedBlocks last.disk (inodeVersion last n) =
      ownedBlocks s.disk (inodeVersion s n) := by
    rw [hversion, hdisk]
    rfl
  refine ⟨⟨hpart ▸ h.areas, h.number, hpart ▸ h.inBitmap, hpart ▸ h.allocated, ?_,
    howned ▸ h.distinct, howned ▸ hpart ▸ h.taken, howned ▸ hpart ▸ h.above⟩, howned⟩
  rw [hversion]
  exact h.iNo

theorem Released.congr {mid : Kernel} (h : Released s n mid) (hpart : last.part = mid.part)
    (hdisk : last.disk = mid.disk) : Released s n last := by
  obtain ⟨hblocks, hinodes, honDisk, hrecord, hfree⟩ := h
  rw [← hpart] at hblocks hinodes hfree
  exact ⟨hblocks, hinodes, by simpa only [ReleasedOnDisk, hdisk] using honDisk,
    by simpa only [hdisk] using hrecord, hfree⟩

end LosKernel
