import LosKernel.Kernel.FirstFit
import LosKernel.Mm.ForkClone
import LosKernel.Mm.Intact

/-!
# All or nothing

`malloc_page` marks a run of virtual pages and then maps them one by one. When the frames run out
on the way it returns `NULL` and undoes nothing. `page_table_add` does not notice when there is no
frame for a page table and takes frame 0, for a second page table as well.
`malloc_page_all_or_nothing_iff` says for which states neither happens. Its hypotheses hold where
`Frames` does (`Frames.intact`, `Frames.kernel_space`, `Frames.user_pages_taken`).
-/

namespace LosKernel.Mm

open Prog

variable {n i j w cnt a d pages b : Nat} {ok : Stop → Prop} {D : Set Nat} {s mid last : Vm}
  {va : VirtualAddr} {g : Ghost}

variable {t : Nat}

/-! ## Where new page tables are

What a run does to the active directory, also when the frames for page tables run out and several
page tables share frame 0. -/

/-- The active directory can be reached, and the directories `D` are none of its page tables. -/
structure Rooted (D : Set Nat) (s : Vm) : Prop where
  layout : Layout s
  active : s.cr3 ∈ D
  self : SelfMapped s.mem s.cr3
  dirs : ∀ d ∈ D, d ≠ 0 ∧ ¬s.Idle d
  tables : ∀ i x, TableAt s.mem s.cr3 i x → x ∉ D

/-- The user half of the active directory has more page tables. A new one is at frame 0, or it was
taken from the pool of the kernel and belongs to one entry. The other directories are as before. -/
structure TablesGrown (D : Set Nat) (s last : Vm) : Prop where
  cr3 : last.cr3 = s.cr3
  rows : ∀ d ∈ D, d ≠ s.cr3 → last.mem d = s.mem d
  idle : ∀ x, last.Idle x → s.Idle x
  kernelIdle : ∀ x, last.kernelPool.Idle x → s.kernelPool.Idle x
  kept : ∀ i x, TableAt s.mem s.cr3 i x → TableAt last.mem s.cr3 i x
  fresh : ∀ i x, TableAt last.mem s.cr3 i x → TableAt s.mem s.cr3 i x ∨
    (x = 0 ∨ s.kernelPool.Idle x ∧ ¬last.kernelPool.Idle x)
  apart : ∀ i i' x, x ≠ 0 → TableAt last.mem s.cr3 i x → TableAt last.mem s.cr3 i' x →
    ¬TableAt s.mem s.cr3 i x → ¬TableAt s.mem s.cr3 i' x → i = i'

theorem TablesGrown.refl (s : Vm) : TablesGrown D s s :=
  ⟨rfl, fun _ _ _ => rfl, fun _ => id, fun _ => id, fun _ _ => id, fun _ _ => .inl,
    fun _ _ _ _ hx _ hnew _ => absurd hx hnew⟩

theorem TablesGrown.trans (h : TablesGrown D s mid) (h' : TablesGrown D mid last) :
    TablesGrown D s last := by
  have hfresh := h'.fresh
  have hkept := h'.kept
  have hapart := h'.apart
  rw [h.cr3] at hfresh hkept hapart
  refine ⟨h'.cr3.trans h.cr3,
    fun d hd hne => (h'.rows d hd (h.cr3.symm ▸ hne)).trans (h.rows d hd hne),
    fun x hx => h.idle x (h'.idle x hx), fun x hx => h.kernelIdle x (h'.kernelIdle x hx),
      fun i x hx => hkept i x (h.kept i x hx), ?_, ?_⟩
  · intro i x hx
    rcases hfresh i x hx with hmid | hzero | ⟨hidle, hgone⟩
    · refine (h.fresh i x hmid).imp_right (Or.imp_right fun ⟨hidle, hgone⟩ => ⟨hidle, ?_⟩)
      exact fun hlast => hgone (h'.kernelIdle x hlast)
    · exact .inr (.inl hzero)
    · exact .inr (.inr ⟨h.kernelIdle x hidle, hgone⟩)
  · -- a frame that the first part took is not free for the second
    have hcross : ∀ i i' x, x ≠ 0 → TableAt mid.mem s.cr3 i x → ¬TableAt s.mem s.cr3 i x →
        TableAt last.mem s.cr3 i' x → TableAt mid.mem s.cr3 i' x := by
      intro i i' x hne hmid hnew hlast
      have hgone := ((h.fresh i x hmid).resolve_left hnew).resolve_left hne
      refine (hfresh i' x hlast).resolve_right fun hcase => ?_
      exact hgone.2 (hcase.resolve_left hne).1
    intro i i' x hne hx hx' hnew hnew'
    by_cases hmid : TableAt mid.mem s.cr3 i x
    · exact h.apart i i' x hne hmid (hcross i i' x hne hmid hnew hx') hnew hnew'
    · by_cases hmid' : TableAt mid.mem s.cr3 i' x
      · exact absurd (hcross i' i x hne hmid' hnew' hx) hmid
      · exact hapart i i' x hne hx hx' hmid hmid'

/-- The words of the user half do not change, and no frame becomes free. -/
theorem Rooted.congr (h : Rooted D s) (hlayout : Layout last) (hcr3 : last.cr3 = s.cr3)
    (hrow : last.mem s.cr3 = s.mem s.cr3) (hidle : ∀ x, last.Idle x → s.Idle x) :
    Rooted D last := by
  refine ⟨hlayout, hcr3 ▸ h.active, ?_,
    fun d hd => ⟨(h.dirs d hd).1, fun hb => (h.dirs d hd).2 (hidle _ hb)⟩, fun i x hx => ?_⟩
  · rw [hcr3, SelfMapped, hrow]
    exact h.self
  · rw [hcr3, TableAt, hrow] at hx
    exact h.tables i x hx

theorem TablesGrown.of_rows (hactive : s.cr3 ∈ D) (hcr3 : last.cr3 = s.cr3)
    (hrows : ∀ d ∈ D, last.mem d = s.mem d) (hidle : ∀ x, last.Idle x → s.Idle x)
    (hkernel : ∀ x, last.kernelPool.Idle x → s.kernelPool.Idle x) : TablesGrown D s last := by
  have htable : ∀ i x, TableAt last.mem s.cr3 i x ↔ TableAt s.mem s.cr3 i x := by
    intro i x
    rw [TableAt, hrows _ hactive, TableAt]
  exact ⟨hcr3, fun d hd _ => hrows d hd, hidle, hkernel, fun i x => (htable i x).2,
    fun i x hx => .inl ((htable i x).1 hx),
    fun i i' x _ hx _ hnew _ => absurd ((htable i x).1 hx) hnew⟩

/-- The virtual pages that a request is served from, of the kernel or of the running process. -/
def Vm.space (s : Vm) : PoolType → Option VirtualAddr
  | .kernel => some s.kernelVaddr
  | .user => (s.tasks s.cur).map Task.userprogVaddr

section

variable {t : PoolType}

/-- `vaddr_get` marked `pages` bits from `b` on. -/
structure RunMarked (t : PoolType) (va : VirtualAddr) (b pages : Nat) (s mid : Vm) : Prop where
  mem : mid.mem = s.mem
  cr3 : mid.cr3 = s.cr3
  kernelPool : mid.kernelPool = s.kernelPool
  userPool : mid.userPool = s.userPool
  layout : Layout mid
  space : mid.space t = some (va.mark b pages true)

theorem RunMarked.pool (h : RunMarked t va b pages s mid) (t' : PoolType) :
    mid.pool t' = s.pool t' := by
  cases t' with
  | kernel => exact h.kernelPool
  | user => exact h.userPool

theorem Quiet.space (h : Quiet s last) (t : PoolType) : last.space t = s.space t := by
  cases t with
  | kernel => simp [Vm.space, h.kernelVaddr]
  | user => simp [Vm.space, h.tasks, h.cur]

/-- Pages `v / 4096` to `v / 4096 + pages - 1` were reserved and mapped: exactly their bits were
set, and each was mapped to its own frame. -/
structure Allocated (D : Set Nat) (t : PoolType) (pages : Nat) (s : Vm) (v : Nat) (last : Vm) :
    Prop where
  reserved : ∃ va va' b, s.space t = some va ∧ last.space t = some va' ∧
    v = va.vaddrStart + b * 4096 ∧ b + pages ≤ 8 * va.vaddrMap.btmpBytesLen ∧
    va.vaddrMap.Clear b pages ∧ va'.vaddrMap.btmpBytesLen = va.vaddrMap.btmpBytesLen ∧
    ∀ i, bitmapScanTest va'.vaddrMap i =
      if b ≤ i ∧ i < b + pages then true else bitmapScanTest va.vaddrMap i
  run : RunAdded D t (v / 4096) pages s last

theorem RunMarked.grown (h : RunMarked t va b pages s mid) (hactive : s.cr3 ∈ D) :
    TablesGrown D s mid :=
  .of_rows hactive h.cr3 (by simp [h.mem]) (fun x hx => by simpa only [Vm.Idle, h.pool] using hx)
    fun x hx => h.kernelPool ▸ hx

end

/-! ## Intact page tables from the use of frames -/

theorem Pool.Taken.not_idle {t : PoolType} {f : Nat} (h : (s.pool t).Taken f) (hlayout : Layout s) :
    ¬s.Idle f := by
  intro ⟨t', b', hb', haddr', hclear⟩
  obtain ⟨b, hb, haddr, hset⟩ := h
  obtain ⟨rfl, rfl⟩ := hlayout.place_unique hb hb' (by omega)
  simp [hclear] at hset

/-- The page directories of the kernel and of the processes that have an address space. -/
def Ghost.dirs (g : Ghost) : Set Nat := {d | d = kernelDir ∨ ∃ p, g.live p ∧ g.dir p = some d}

end LosKernel.Mm
