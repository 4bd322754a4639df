import LosKernel.Mm.Tables

/-!
# Fork, exit and wait

What a fork takes from the virtual pages of the kernel, and what the exit and the wait give back.
The bitmap of the virtual pages of a process fills 22 pages and a part of a 23rd. The fork
allocates all 23 (`DIV_ROUND_UP`); the exit frees 22 (`btmp_bytes_len / PG_SIZE`).
-/

namespace LosKernel.Mm

open Prog

variable {s last mid s1 s2 s3 s4 : Vm} {task : Task} {b bufPage child : Nat}

/-! ## What does not touch the virtual pages of the kernel -/

/-- The control blocks, their list, the running thread and the open files stay. -/
structure SameTasks (s last : Vm) : Prop where
  tasks : last.tasks = s.tasks
  threadAllList : last.threadAllList = s.threadAllList
  mainThread : last.mainThread = s.mainThread
  cur : last.cur = s.cur
  fdInode : last.fdInode = s.fdInode
  intrExit : last.intrExit = s.intrExit

theorem SameTasks.trans (h : SameTasks s mid) (h' : SameTasks mid last) : SameTasks s last :=
  ⟨h'.tasks.trans h.tasks, h'.threadAllList.trans h.threadAllList,
    h'.mainThread.trans h.mainThread, h'.cur.trans h.cur, h'.fdInode.trans h.fdInode,
    h'.intrExit.trans h.intrExit⟩

theorem SameTasks.after (h : SameTasks mid last) (h' : SameTasks s mid) : SameTasks s last :=
  h'.trans h

/-- Nothing but words, frames and the active directory changes. -/
structure Quiet (s last : Vm) : Prop extends same_tasks : SameTasks s last where
  kernelVaddr : last.kernelVaddr = s.kernelVaddr
  nextPid : last.nextPid = s.nextPid

instance : Std.Refl Quiet := ⟨fun _ => ⟨⟨rfl, rfl, rfl, rfl, rfl, rfl⟩, rfl, rfl⟩⟩

instance : IsTrans Vm Quiet :=
  ⟨fun _ _ _ h h' => ⟨h.same_tasks.trans h'.same_tasks, h'.kernelVaddr.trans h.kernelVaddr,
    h'.nextPid.trans h.nextPid⟩⟩

/-- A change of words, of frames or of the active directory. -/
theorem keeps_update {change : Vm → Vm} (h : ∀ s, Quiet s (change s)) :
    Keeps Quiet (update change : Call Unit) := h

theorem quiet_set_pool_map (s : Vm) (t : PoolType) (m : BitMap) : Quiet s (s.setPoolMap t m) := by
  cases t <;> exact ⟨⟨rfl, rfl, rfl, rfl, rfl, rfl⟩, rfl, rfl⟩

theorem keeps_frame_at (vaddr : Nat) : Keeps Quiet (frameAt vaddr) :=
  Keeps.bind Keeps.state fun _ => keeps_non_null _

theorem keeps_load (vaddr : Nat) : Keeps Quiet (load vaddr) :=
  (keeps_frame_at vaddr).bind fun _ => Keeps.state.bind fun _ => Keeps.pure _

theorem keeps_store (vaddr value : Nat) : Keeps Quiet (store vaddr value) :=
  (keeps_frame_at vaddr).bind fun _ => keeps_update fun _ =>
    ⟨⟨rfl, rfl, rfl, rfl, rfl, rfl⟩, rfl, rfl⟩

theorem keeps_zero_page (vaddr : Nat) : Keeps Quiet (zeroPage vaddr) :=
  (keeps_frame_at vaddr).bind fun _ => keeps_update fun _ =>
    ⟨⟨rfl, rfl, rfl, rfl, rfl, rfl⟩, rfl, rfl⟩

theorem keeps_copy_page (dst src first : Nat) : Keeps Quiet (copyPage dst src first) :=
  (keeps_frame_at src).bind fun _ => (keeps_frame_at dst).bind fun _ =>
    keeps_update fun _ => ⟨⟨rfl, rfl, rfl, rfl, rfl, rfl⟩, rfl, rfl⟩

theorem keeps_addr_v2p (vaddr : Nat) : Keeps Quiet (addrV2p vaddr) :=
  (keeps_load _).bind fun _ => Keeps.pure _

theorem keeps_palloc (t : PoolType) : Keeps Quiet (palloc t) := by
  refine Keeps.state.bind fun s => ?_
  cases bitmapScan (s.pool t).poolMap 1 with
  | none => exact Keeps.pure none
  | some bitIdx =>
    exact (keeps_update fun s => quiet_set_pool_map s t _).bind fun _ => Keeps.pure _

theorem keeps_pfree (pgPhyAddr : Nat) : Keeps Quiet (pfree pgPhyAddr) :=
  keeps_update fun s => quiet_set_pool_map s _ _

theorem keeps_page_table_add (vaddr pagePhyaddr : Nat) :
    Keeps Quiet (pageTableAdd vaddr pagePhyaddr) := by
  refine (keeps_load _).bind fun _ => Keeps.ite ?_ ?_
  · exact (keeps_load _).bind fun _ => (Keeps.guard _ _).bind fun _ => keeps_store _ _
  · exact (keeps_palloc _).bind fun _ => (keeps_store _ _).bind fun _ =>
      (keeps_zero_page _).bind fun _ => (keeps_load _).bind fun _ =>
        (Keeps.guard _ _).bind fun _ => keeps_store _ _

theorem keeps_map_pages (t : PoolType) : ∀ cnt vaddr, Keeps Quiet (mapPages t cnt vaddr) := by
  intro cnt
  induction cnt with
  | zero => exact fun _ => Keeps.pure true
  | succ cnt ih =>
    intro vaddr
    refine (keeps_palloc t).bind fun frame => ?_
    cases frame with
    | none => exact Keeps.pure false
    | some frame => exact (keeps_page_table_add _ _).bind fun _ => ih _

theorem keeps_unmap_pages (t : PoolType) : ∀ cnt vaddr, Keeps Quiet (unmapPages t cnt vaddr) := by
  intro cnt
  induction cnt with
  | zero => exact fun _ => Keeps.pure ()
  | succ cnt ih =>
    intro vaddr
    refine (keeps_addr_v2p _).bind fun _ => Keeps.state.bind fun _ => ?_
    cases t <;>
      exact (Keeps.guard _ _).bind fun _ => (keeps_pfree _).bind fun _ =>
        ((keeps_load _).bind fun _ => keeps_store _ _).bind fun _ => ih _

theorem keeps_zero_pages : ∀ pages vaddr, Keeps Quiet (zeroPages pages vaddr) := by
  intro pages
  induction pages with
  | zero => exact fun _ => Keeps.pure ()
  | succ pages ih => exact fun _ => (keeps_zero_page _).bind fun _ => ih _

theorem keeps_copy_pages : ∀ pages dst src, Keeps Quiet (copyPages pages dst src) := by
  intro pages
  induction pages with
  | zero => exact fun _ _ => Keeps.pure ()
  | succ pages ih => exact fun _ _ => (keeps_copy_page _ _ _).bind fun _ => ih _ _

theorem keeps_page_dir_activate (task : Task) : Keeps Quiet (pageDirActivate task) :=
  Keeps.ite
    ((keeps_addr_v2p _).bind fun _ => keeps_update fun _ =>
      ⟨⟨rfl, rfl, rfl, rfl, rfl, rfl⟩, rfl, rfl⟩)
    (keeps_update fun _ => ⟨⟨rfl, rfl, rfl, rfl, rfl, rfl⟩, rfl, rfl⟩)

theorem keeps_get_a_page_without_opvaddrbitmap (pf : PoolType) (vaddr : Nat) :
    Keeps Quiet (getAPageWithoutOpvaddrbitmap pf vaddr) := by
  refine (keeps_palloc pf).bind fun frame => ?_
  cases frame with
  | none => exact Keeps.pure none
  | some frame => exact (keeps_page_table_add _ _).bind fun _ => Keeps.pure _

theorem keeps_copy_byte (child parent : Task) (bufPage idxByte : Nat) :
    ∀ count idxBit, Keeps Quiet (copyByte child parent bufPage idxByte count idxBit) := by
  intro count
  induction count with
  | zero => exact fun _ => Keeps.pure ()
  | succ count ih =>
    intro idxBit
    refine (Keeps.when ?_).bind fun _ => ih _
    exact (keeps_copy_page _ _ _).bind fun _ => (keeps_page_dir_activate _).bind fun _ =>
      (keeps_get_a_page_without_opvaddrbitmap _ _).bind fun _ =>
        (keeps_copy_page _ _ _).bind fun _ => keeps_page_dir_activate _

theorem keeps_copy_body_stack3 (child parent : Task) (bufPage : Nat) :
    ∀ count idxByte, Keeps Quiet (copyBodyStack3 child parent bufPage count idxByte) := by
  intro count
  induction count with
  | zero => exact fun _ => Keeps.pure ()
  | succ count ih =>
    exact fun _ => (Keeps.when (keeps_copy_byte _ _ _ _ _ _)).bind fun _ => ih _

theorem keeps_build_child_stack (child : Nat) (task : Task) :
    Keeps Quiet (buildChildStack child task) :=
  .bind (keeps_store _ _) fun _ => .bind .state fun _ => .bind (keeps_store _ _) fun _ =>
    .bind (keeps_store _ _) fun _ => .bind (keeps_store _ _)
    fun _ => .bind (keeps_store _ _) fun _ =>
      .bind (keeps_store _ _) fun _ => .pure _

theorem build_child_stack_task (child : Nat) (task : Task) (s : Vm) :
    wp any (buildChildStack child task) s fun r _ =>
      r = { task with selfKstack := intrStack child - 20 } := by
  simp only [buildChildStack, wp_bind, wp_state]
  iterate 6 refine wp_any_of_forall fun _ _ => ?_
  trivial

theorem keeps_update_inode_open_cnts (thread : Task) :
    ∀ count localFd, Keeps Quiet (updateInodeOpenCnts thread count localFd) := by
  intro count
  induction count with
  | zero => exact fun _ => .pure ()
  | succ count ih =>
    intro localFd
    refine .bind (Keeps.guard _ _) fun _ => .bind (.when ?_) fun _ => ih _
    exact .bind (.guard _ _) fun _ => .bind .state fun _ => .bind (keeps_non_null _) fun _ =>
      keeps_update fun _ => ⟨⟨rfl, rfl, rfl, rfl, rfl, rfl⟩, rfl, rfl⟩

theorem keeps_release_table (pdeIdx : Nat) :
    ∀ count pteIdx, Keeps Quiet (releaseTable pdeIdx count pteIdx) := by
  intro count
  induction count with
  | zero => exact fun _ => Keeps.pure ()
  | succ count ih =>
    exact fun _ => (keeps_load _).bind fun _ =>
      (Keeps.when (keeps_pfree _)).bind fun _ => ih _

theorem keeps_release_tables (pgdirVaddr : Nat) :
    ∀ count pdeIdx, Keeps Quiet (releaseTables pgdirVaddr count pdeIdx) := by
  intro count
  induction count with
  | zero => exact fun _ => Keeps.pure ()
  | succ count ih =>
    exact fun _ => (keeps_load _).bind fun _ =>
      (Keeps.when ((keeps_release_table _ _ _).bind fun _ => keeps_pfree _)).bind
        fun _ => ih _

/-! ## Taking and giving back virtual pages of the kernel -/

/-- The virtual pages of the kernel after `cnt` of them from `start` on get the mark `value`. -/
def VirtualAddr.mark (v : VirtualAddr) (start cnt : Nat) (value : Bool) : VirtualAddr :=
  { v with vaddrMap := bitmapSetRange v.vaddrMap start cnt value }

@[simp] theorem VirtualAddr.mark_vaddr_start (v : VirtualAddr) (start cnt : Nat) (value : Bool) :
    (v.mark start cnt value).vaddrStart = v.vaddrStart := rfl

@[simp] theorem VirtualAddr.mark_len (v : VirtualAddr) (start cnt : Nat) (value : Bool) :
    (v.mark start cnt value).vaddrMap.btmpBytesLen = v.vaddrMap.btmpBytesLen :=
  bitmap_set_range_len _ _ _ _

theorem VirtualAddr.mark_bit (v : VirtualAddr) (start cnt : Nat) (value : Bool) (j : Nat) :
    bitmapScanTest (v.mark start cnt value).vaddrMap j =
      if start ≤ j ∧ j < start + cnt then value else bitmapScanTest v.vaddrMap j :=
  scan_test_set_range _ _ _ _ _

/-- A bit of the bitmap of virtual pages that lie inside the address space. -/
def VirtualAddr.Fits (v : VirtualAddr) : Prop :=
  v.vaddrStart + (8 * v.vaddrMap.btmpBytesLen + 1) * 4096 ≤ 2 ^ 32

theorem VirtualAddr.Fits.mark {v : VirtualAddr} (h : v.Fits) (start cnt : Nat) (value : Bool) :
    (v.mark start cnt value).Fits := by
  unfold Fits at *
  simpa using h

/-- `pages` pages at `vaddr` were taken: they were free, and nothing else is marked. -/
def Took (s : Vm) (pages vaddr : Nat) (last : Vm) : Prop :=
  SameTasks s last ∧ ∃ b, bitmapScan s.kernelVaddr.vaddrMap pages = some b ∧
    vaddr = s.kernelVaddr.vaddrStart + b * 4096 ∧
    last.kernelVaddr = s.kernelVaddr.mark b pages true

theorem get_kernel_pages_took (pages : Nat) (s : Vm) : wp any (getKernelPages pages) s fun r last =>
      SameTasks s last ∧ ∀ vaddr, r = some vaddr → Took s pages vaddr last := by
  simp only [getKernelPages, mallocPage, vaddrGet, wp_bind, wp_assert, wp_state, and_any]
  intro _
  cases hscan : bitmapScan s.kernelVaddr.vaddrMap pages with
  | none => simpa using (⟨rfl, rfl, rfl, rfl, rfl, rfl⟩ : SameTasks s s)
  | some b =>
    simp only [wp_bind, wp_update, wp_pure]
    refine wp_mono (keeps_map_pages .kernel pages _ _) fun served mid hmid => ?_
    have hsame : SameTasks s mid := hmid.same_tasks.after ⟨rfl, rfl, rfl, rfl, rfl, rfl⟩
    cases served with
    | false => simpa using hsame
    | true =>
      simp only [if_true, wp_pure, wp_bind]
      refine wp_mono (keeps_zero_pages pages _ mid) fun _ last hlast => ?_
      refine ⟨hsame.trans hlast.same_tasks, ?_⟩
      rintro _ ⟨⟩
      exact ⟨hsame.trans hlast.same_tasks, b, hscan, rfl, hlast.kernelVaddr.trans hmid.kernelVaddr⟩

theorem create_page_dir_took (s : Vm) : wp any createPageDir s fun vaddr last =>
      SameTasks s last ∧ (vaddr ≠ 0 → Took s 1 vaddr last) := by
  refine wp_seq (get_kernel_pages_took 1 s) ?_
  intro r mid ⟨hsame, htook⟩
  cases r with
  | none => simpa using hsame
  | some vaddr =>
    obtain ⟨-, b, hscan, hvaddr, hkernel⟩ := htook vaddr rfl
    have hkeeps : Keeps Quiet (do
        copyPage vaddr 0xfffff000 0x300
        let newPageDirPhyAddr ← addrV2p vaddr
        store (vaddr + 1023 * 4) (entryFor newPageDirPhyAddr)
        pure vaddr) :=
      (keeps_copy_page _ _ _).bind fun _ => (keeps_addr_v2p _).bind fun _ =>
        (keeps_store _ _).bind fun _ => Keeps.pure _
    have hresult : wp any (do
        copyPage vaddr 0xfffff000 0x300
        let newPageDirPhyAddr ← addrV2p vaddr
        store (vaddr + 1023 * 4) (entryFor newPageDirPhyAddr)
        pure vaddr) mid fun r _ => r = vaddr := by
      simp only [wp_bind, wp_pure]
      refine wp_any_of_forall fun _ _ => wp_any_of_forall fun _ _ => ?_
      exact wp_any_of_forall fun _ _ => trivial
    refine wp_mono (wp_and (hkeeps mid) hresult) ?_
    rintro _ last ⟨hlast, rfl⟩
    have hboth := hsame.trans hlast.same_tasks
    exact ⟨hboth, fun _ => ⟨hboth, b, hscan, hvaddr, hlast.kernelVaddr.trans hkernel⟩⟩

theorem mfree_page_kernel_mark (s : Vm) {pgCnt : Nat} (hfits : s.kernelVaddr.Fits)
    (hb : b ≤ 8 * s.kernelVaddr.vaddrMap.btmpBytesLen) :
    wp any (mfreePage .kernel (s.kernelVaddr.vaddrStart + b * 4096) pgCnt) s fun _ last =>
      SameTasks s last ∧ last.kernelVaddr = s.kernelVaddr.mark b pgCnt false := by
  have hunmap : ∀ t first, Quiet s first → wp any (do
      unmapPages t pgCnt (s.kernelVaddr.vaddrStart + b * 4096)
      vaddrRemove .kernel (s.kernelVaddr.vaddrStart + b * 4096) pgCnt) first fun _ last =>
      SameTasks s last ∧ last.kernelVaddr = s.kernelVaddr.mark b pgCnt false := by
    intro t first hfirst
    simp only [wp_bind]
    refine wp_mono (keeps_unmap_pages t pgCnt _ first) fun _ mid hmid => ?_
    have hquiet : Quiet s mid := IsTrans.trans _ _ _ hfirst hmid
    refine ⟨hquiet.same_tasks.trans ⟨rfl, rfl, rfl, rfl, rfl, rfl⟩, ?_⟩
    unfold VirtualAddr.Fits at hfits
    simp only [hquiet.kernelVaddr, VirtualAddr.mark]
    rw [show (s.kernelVaddr.vaddrStart + b * 4096 + 2 ^ 32 - s.kernelVaddr.vaddrStart) % 2 ^ 32 /
      4096 = b by omega]
  simp only [mfreePage, wp_bind, wp_assert, and_any, wp_ite]
  intro _
  refine wp_mono (keeps_addr_v2p _ s) fun _ first hfirst _ => ?_
  simp only [wp_bind] at hunmap
  exact ⟨fun _ => hunmap .user first hfirst, fun _ => hunmap .kernel first hfirst⟩

/-! ## The three calls -/

/-- The page of index `i` lies outside the `bitmapPgCnt` pages from `b` on. -/
def Outside (b i : Nat) : Prop := i < b ∨ b + bitmapPgCnt ≤ i

/-- The pages from `b` on, which were free before, are taken for the bitmap of a child. -/
structure BitmapTaken (s : Vm) (b : Nat) (last : Vm) : Prop where
  vaddrStart : last.kernelVaddr.vaddrStart = s.kernelVaddr.vaddrStart
  len : last.kernelVaddr.vaddrMap.btmpBytesLen = s.kernelVaddr.vaddrMap.btmpBytesLen
  room : b + bitmapPgCnt ≤ 8 * s.kernelVaddr.vaddrMap.btmpBytesLen + 1
  free : ∀ j < bitmapPgCnt, bitmapScanTest s.kernelVaddr.vaddrMap (b + j) = false
  taken : ∀ j < bitmapPgCnt, bitmapScanTest last.kernelVaddr.vaddrMap (b + j) = true

/-- What a fork does once the control block of the child is allocated: the page directory of the
child lies outside of its bitmap. -/
structure Copied (s : Vm) (parent task : Task) (b : Nat) (last : Vm) : Prop
    extends BitmapTaken s b last where
  user : task.userprogVaddr = parent.userprogVaddr
  bits : task.bitsAddr = s.kernelVaddr.vaddrStart + b * 4096
  pgdir : ∃ d ≤ 8 * s.kernelVaddr.vaddrMap.btmpBytesLen, Outside b d ∧
    task.pgdir = s.kernelVaddr.vaddrStart + d * 4096

theorem copy_pcb_took (child : Nat) (parentThread : Task) (s : Vm) :
    wp any (copyPcbVaddrbitmapStack0 child parentThread) s fun r last =>
      SameTasks s last ∧ ∀ task, r = some task →
        task.userprogVaddr = parentThread.userprogVaddr ∧
        Took s bitmapPgCnt task.bitsAddr last := by
  simp only [copyPcbVaddrbitmapStack0, allocatePid, wp_bind, wp_state, wp_update, wp_pure]
  refine wp_mono (keeps_copy_page _ _ _ s) fun _ first hfirst => ?_
  refine wp_mono (get_kernel_pages_took bitmapPgCnt _) ?_
  rintro r mid ⟨hsame, htook⟩
  have hmid : SameTasks s mid :=
    hfirst.same_tasks.trans (hsame.after ⟨rfl, rfl, rfl, rfl, rfl, rfl⟩)
  cases r with
  | none => simpa using hmid
  | some vaddr =>
    obtain ⟨-, b, hscan, hvaddr, hkernel⟩ := htook vaddr rfl
    simp only [hfirst.kernelVaddr] at hscan hvaddr hkernel
    simp only [wp_bind]
    refine wp_mono (keeps_copy_pages bitmapPgCnt _ _ mid) fun _ last hlast => ?_
    have hboth := hmid.trans hlast.same_tasks
    refine ⟨hboth, ?_⟩
    rintro _ ⟨⟩
    exact ⟨rfl, hboth, b, hscan, hvaddr, hlast.kernelVaddr.trans hkernel⟩

/-- The pages that `copy_process` takes, with the buffer page given back. -/
theorem copied_of_took {parent : Task} (hbuf : Took s 1 bufPage s1)
    (hbits : Took s1 bitmapPgCnt task.bitsAddr s2)
    (huser : task.userprogVaddr = parent.userprogVaddr) (hdir : Took s2 1 task.pgdir s3)
    (hquiet : Quiet s3 s4)
    (hlast : ∀ buf, bufPage = s4.kernelVaddr.vaddrStart + buf * 4096 →
      last.kernelVaddr = s4.kernelVaddr.mark buf 1 false) : ∃ b, Copied s parent task b last := by
  obtain ⟨-, buf, hscan, hbufAddr, hkernel⟩ := hbuf
  obtain ⟨-, b, hscan', hbitsAddr, hkernel'⟩ := hbits
  obtain ⟨-, d, hscan'', hdirAddr, hkernel''⟩ := hdir
  obtain ⟨hroom, hfree⟩ := bitmap_scan_eq_some _ (by decide) hscan'
  obtain ⟨hdirRoom, hdirFree⟩ := bitmap_scan_eq_some _ (by decide) hscan''
  have h4 := hquiet.kernelVaddr
  rw [hkernel'', hkernel', hkernel] at h4
  simp only [hkernel] at hroom
  simp only [hkernel', hkernel, VirtualAddr.mark_len] at hdirRoom
  simp only [hkernel] at hbitsAddr
  simp only [hkernel', hkernel, VirtualAddr.mark_vaddr_start] at hdirAddr
  have hend := hlast buf (by simpa only [h4, VirtualAddr.mark_vaddr_start] using hbufAddr)
  -- the pages of the bitmap are not the buffer page, and the directory is neither
  have hne : ∀ j < bitmapPgCnt, b + j ≠ buf := by
    intro j hj heq
    have := hfree j hj
    rw [hkernel, VirtualAddr.mark_bit, if_pos (by omega)] at this
    simp at this
  refine ⟨b, ⟨by simp only [hend, h4, VirtualAddr.mark_vaddr_start],
    by simp only [hend, h4, VirtualAddr.mark_len], hroom, fun j hj => ?_, fun j hj => ?_⟩,
    huser, hbitsAddr, d, by omega, ?_, hdirAddr⟩
  · have := hfree j hj
    rw [hkernel, VirtualAddr.mark_bit, if_neg (by have := hne j hj; omega)] at this
    exact this
  · rw [hend, h4]
    simp only [VirtualAddr.mark_bit]
    rw [if_neg (by have := hne j hj; omega)]
    by_cases hd : d ≤ b + j ∧ b + j < d + 1
    · rw [if_pos hd]
    · rw [if_neg hd, if_pos (by omega)]
  · have := hdirFree 0 (by decide)
    rw [hkernel', VirtualAddr.mark_bit] at this
    unfold Outside
    by_contra hin
    rw [if_pos (by omega)] at this
    simp at this

/-- The address of the buffer page when `copy_process` gives it back. -/
theorem buffer_kept {bits pgdir : Nat} (hbuf : Took s 1 bufPage s1)
    (hbits : Took s1 bitmapPgCnt bits s2) (hdir : Took s2 1 pgdir s3) (hquiet : Quiet s3 s4)
    (hfits : s.kernelVaddr.Fits) :
    ∃ buf, bufPage = s4.kernelVaddr.vaddrStart + buf * 4096 ∧
      buf ≤ 8 * s4.kernelVaddr.vaddrMap.btmpBytesLen ∧ s4.kernelVaddr.Fits := by
  obtain ⟨-, buf, hscan, hbufAddr, hkernel⟩ := hbuf
  obtain ⟨-, b, -, -, hkernel'⟩ := hbits
  obtain ⟨-, d, -, -, hkernel''⟩ := hdir
  obtain ⟨hroom, -⟩ := bitmap_scan_eq_some _ (by decide) hscan
  rw [hquiet.kernelVaddr, hkernel'', hkernel', hkernel]
  exact ⟨buf, by simpa only [VirtualAddr.mark_vaddr_start] using hbufAddr,
    by simp only [VirtualAddr.mark_len]; omega, ((hfits.mark _ _ _).mark _ _ _).mark _ _ _⟩

theorem copy_process_copied (child : Nat) (parent : Task) (s : Vm) (hfits : s.kernelVaddr.Fits) :
    wp any (copyProcess child parent) s fun r last =>
      SameTasks s last ∧ ∀ task, r = some task → ∃ b, Copied s parent task b last := by
  refine wp_seq (get_kernel_pages_took 1 s) ?_
  rintro r s1 ⟨hsame1, htook1⟩
  cases r with
  | none => simpa using hsame1
  | some bufPage =>
    refine wp_seq (copy_pcb_took child parent s1) ?_
    rintro r s2 ⟨hsame2, htook2⟩
    have hsame2 := hsame1.trans hsame2
    cases r with
    | none => simpa using hsame2
    | some task =>
      refine wp_seq (create_page_dir_took s2) ?_
      rintro pgdir s3 ⟨hsame3, htook3⟩
      have hsame3 := hsame2.trans hsame3
      rw [wp_ite]
      refine ⟨fun _ => by simpa using hsame3, fun hpgdir => ?_⟩
      simp only [wp_bind]
      refine wp_mono (keeps_copy_body_stack3 _ _ _ _ _ s3) fun _ x hquiet3 => ?_
      refine wp_mono (wp_and (build_child_stack_task child _ x)
        (keeps_build_child_stack child _ x)) ?_
      rintro _ y ⟨rfl, hquiet4⟩
      refine wp_mono (keeps_update_inode_open_cnts _ _ _ y) fun _ s4 hquiet5 => ?_
      have hquiet : Quiet s3 s4 :=
        IsTrans.trans _ _ _ hquiet3 (IsTrans.trans _ _ _ hquiet4 hquiet5)
      have hbuf := htook1 bufPage rfl
      obtain ⟨huser, hbits⟩ := htook2 task rfl
      have hdir := htook3 hpgdir
      obtain ⟨buf, hbufAddr, hbufRoom, hfits4⟩ := buffer_kept hbuf hbits hdir hquiet hfits
      rw [hbufAddr]
      refine wp_mono (mfree_page_kernel_mark s4 hfits4 hbufRoom) ?_
      rintro _ last ⟨hsame, hlast⟩
      refine ⟨(hsame3.trans hquiet.same_tasks).trans hsame, ?_⟩
      rintro _ ⟨⟩
      refine copied_of_took hbuf hbits huser hdir hquiet fun buf' hbuf' => ?_
      obtain rfl : buf' = buf := by omega
      exact hlast

/-- What a fork that returns a child leaves: the control block and the page directory of the child
lie outside of its bitmap. -/
structure Forked (s : Vm) (child b : Nat) (last : Vm) : Prop extends BitmapTaken s b last where
  pcb : ∃ c ≤ 8 * s.kernelVaddr.vaddrMap.btmpBytesLen, Outside b c ∧
    child = s.kernelVaddr.vaddrStart + c * 4096
  task : ∃ parent task, s.tasks s.cur = some parent ∧ last.tasks child = some task ∧
    task.userprogVaddr = parent.userprogVaddr ∧
    task.bitsAddr = s.kernelVaddr.vaddrStart + b * 4096 ∧
    ∃ d ≤ 8 * s.kernelVaddr.vaddrMap.btmpBytesLen, Outside b d ∧
      task.pgdir = s.kernelVaddr.vaddrStart + d * 4096

theorem sys_fork_forked (s : Vm) (hfits : s.kernelVaddr.Fits) : wp any sysFork s fun r last =>
      ∀ child pid, r = some (child, pid) → ∃ b, Forked s child b last := by
  simp only [sysFork, wp_bind, wp_running_thread, and_any]
  intro parent hparent
  refine wp_mono (get_kernel_pages_took 1 s) ?_
  rintro r s1 ⟨_, htook⟩
  cases r with
  | none => simp
  | some child =>
    obtain ⟨-, c, hscan, hchild, hkernel⟩ := htook child rfl
    obtain ⟨hroom, hclear⟩ := bitmap_scan_eq_some _ (by decide) hscan
    simp only [wp_bind, wp_assert, and_any]
    intro _
    refine wp_mono (copy_process_copied child parent s1
      (by rw [hkernel]; exact hfits.mark _ _ _)) ?_
    rintro r last ⟨_, hcopied⟩
    cases r with
    | none => simp
    | some task =>
      obtain ⟨b, hcopied⟩ := hcopied task rfl
      rintro _ _ ⟨⟩
      have hstart := hcopied.vaddrStart
      have hlen := hcopied.len
      have hbits := hcopied.bits
      have hpgdir := hcopied.pgdir
      have hspace := hcopied.room
      simp only [hkernel] at hstart hlen hbits hpgdir hspace
      have hfree : ∀ j < bitmapPgCnt, b + j ≠ c ∧
          bitmapScanTest s.kernelVaddr.vaddrMap (b + j) = false := by
        intro j hj
        have := hcopied.free j hj
        rw [hkernel, VirtualAddr.mark_bit] at this
        by_cases hin : c ≤ b + j ∧ b + j < c + 1
        · rw [if_pos hin] at this
          simp at this
        · rw [if_neg hin] at this
          exact ⟨by omega, this⟩
      refine ⟨b, ⟨hstart, hlen, hspace, fun j hj => (hfree j hj).2, hcopied.taken⟩,
        ⟨c, by omega, ?_, hchild⟩, parent, task, hparent, by simp, hcopied.user, hbits, hpgdir⟩
      unfold Outside
      by_contra hin
      exact (hfree (c - b) (by omega)).1 (by omega)

/-- The part of a control block that describes the address space. -/
def Task.space (task : Task) : Nat × VirtualAddr × Nat :=
  (task.pgdir, task.userprogVaddr, task.bitsAddr)

/-- Every control block keeps its address space. -/
def SameSpaces (s last : Vm) : Prop :=
  ∀ p, (last.tasks p).map Task.space = (s.tasks p).map Task.space

theorem SameSpaces.trans (h : SameSpaces s mid) (h' : SameSpaces mid last) :
    SameSpaces s last := fun p => (h' p).trans (h p)

theorem SameSpaces.of_tasks (h : last.tasks = s.tasks) : SameSpaces s last :=
  fun p => by rw [h]

/-- A control block is stored with another status or parent. -/
theorem SameSpaces.store {p : Nat} {new : Task} (htask : s.tasks p = some task)
    (hspace : new.space = task.space) :
    SameSpaces s { s with tasks := Function.update s.tasks p (some new) } := by
  intro q
  by_cases hq : q = p
  · subst hq
    simp [htask, hspace]
  · simp [Function.update_of_ne hq]

theorem switch_to_same (p : Nat) (s : Vm) : wp any (switchTo p) s fun _ last =>
      last.kernelVaddr = s.kernelVaddr ∧ last.tasks = s.tasks ∧ last.cur = p := by
  simp only [switchTo, wp_bind, wp_non_null, and_any]
  intro task _
  refine wp_mono (keeps_page_dir_activate task s) fun _ mid hmid => ?_
  simp [hmid.kernelVaddr, hmid.tasks]

/-- An exit frees the pages of the bitmap that are filled and no other page. -/
theorem sys_exit_mark (s0 : Vm) (htask : s0.tasks child = some task) (hfits : s0.kernelVaddr.Fits)
    (hb : b ≤ 8 * s0.kernelVaddr.vaddrMap.btmpBytesLen)
    (hbits : task.bitsAddr = s0.kernelVaddr.vaddrStart + b * 4096) :
    wp any (do switchTo child; sysExit) s0 fun _ last =>
      SameSpaces s0 last ∧ last.kernelVaddr =
        s0.kernelVaddr.mark b (task.userprogVaddr.vaddrMap.btmpBytesLen / 4096) false := by
  refine wp_seq (switch_to_same child s0) ?_
  rintro _ s ⟨hkernel, htasks, hcur⟩
  subst hcur
  rw [← hkernel] at hfits hb hbits ⊢
  rw [← htasks] at htask
  simp only [sysExit, adoptChildren, releaseProgResource, wp_bind, wp_running_thread,
    wp_assert, wp_update, and_any, htask, Option.some.injEq, forall_eq']
  intro _
  refine wp_mono (keeps_release_tables _ 768 0 _) fun _ s1 h1 => ?_
  have hkernel1 : s1.kernelVaddr = s.kernelVaddr := h1.kernelVaddr
  have hspaces1 : SameSpaces s0 s1 := by
    intro p
    rw [h1.tasks, ← htasks]
    dsimp only
    split
    · cases s.tasks p with
      | none => rfl
      | some t =>
        simp only [Option.map_some]
        split <;> rfl
    · rfl
  rw [hbits, ← hkernel1]
  refine wp_mono (mfree_page_kernel_mark s1 (by rwa [hkernel1]) (by rwa [hkernel1])) ?_
  rintro _ s2 ⟨hsame, hkernel2⟩ child2 hchild2
  have hspaces2 := hspaces1.trans (.of_tasks hsame.tasks)
  have hwake : wp any (wakeParent child2.parentPid) s2 fun _ last =>
      SameSpaces s2 last ∧ last.kernelVaddr = s2.kernelVaddr := by
    simp only [wakeParent, wp_bind, wp_state, wp_non_null, and_any, and_true,
      wp_when, wp_store_task]
    intro parent _ parentThread hparent
    exact ⟨fun _ => .store hparent rfl, fun _ _ => rfl⟩
  refine wp_mono hwake ?_
  rintro _ s3 ⟨hspaces3, hkernel3⟩ child3 hchild3
  exact ⟨(hspaces2.trans hspaces3).trans (.store hchild3 rfl), hkernel3.trans hkernel2⟩

/-- A kernel page that is freed under a condition: a mark elsewhere stays. -/
theorem free_page_when (s : Vm) {condition : Prop} [Decidable condition] {vaddr : Nat}
    (hfits : s.kernelVaddr.Fits) (hb : b ≤ 8 * s.kernelVaddr.vaddrMap.btmpBytesLen)
    (hvaddr : vaddr = s.kernelVaddr.vaddrStart + b * 4096) :
    wp any (when condition (mfreePage .kernel vaddr 1)) s fun _ last =>
      last.kernelVaddr.vaddrStart = s.kernelVaddr.vaddrStart ∧
      last.kernelVaddr.vaddrMap.btmpBytesLen = s.kernelVaddr.vaddrMap.btmpBytesLen ∧
      ∀ i ≠ b, bitmapScanTest last.kernelVaddr.vaddrMap i =
        bitmapScanTest s.kernelVaddr.vaddrMap i := by
  rw [wp_when]
  refine ⟨fun _ => ?_, fun _ => ⟨rfl, rfl, fun _ _ => rfl⟩⟩
  rw [hvaddr]
  refine wp_mono (mfree_page_kernel_mark s hfits hb) ?_
  intro _ last ⟨_, hlast⟩
  refine ⟨by rw [hlast, VirtualAddr.mark_vaddr_start], by rw [hlast, VirtualAddr.mark_len],
    fun i hi => ?_⟩
  rw [hlast, VirtualAddr.mark_bit, if_neg (by omega)]

/-- A wait that reaps a child frees the page directory and the control block of the child and no
other page. -/
theorem sys_wait_reaped (p : Nat) (s : Vm) {c d : Nat} (htask : s.tasks child = some task)
    (hfits : s.kernelVaddr.Fits) (hc : c ≤ 8 * s.kernelVaddr.vaddrMap.btmpBytesLen)
    (hd : d ≤ 8 * s.kernelVaddr.vaddrMap.btmpBytesLen)
    (hchild : child = s.kernelVaddr.vaddrStart + c * 4096)
    (hpgdir : task.pgdir = s.kernelVaddr.vaddrStart + d * 4096) :
    wp any (do switchTo p; sysWait) s fun r last => ∀ pid, r = .reaped child pid →
      ∀ i, i ≠ c → i ≠ d → bitmapScanTest last.kernelVaddr.vaddrMap i =
        bitmapScanTest s.kernelVaddr.vaddrMap i := by
  refine wp_seq (switch_to_same p s) ?_
  rintro _ mid ⟨hkernel, htasks, _⟩
  rw [← hkernel] at hfits hc hd hchild hpgdir ⊢
  rw [← htasks] at htask
  simp only [sysWait, wp_bind, wp_running_thread, and_any, wp_state]
  intro parent _
  cases mid.threadAllList.find? fun p => (mid.tasks p).any fun t =>
      t.parentPid == parent.pid && t.status == .hanging with
  | none =>
    simp only [wp_ite, wp_bind, wp_store_task]
    simp
  | some found =>
    simp only [threadExit, wp_bind, wp_non_null, and_any, wp_store_task,
      wp_update, wp_pure, Waited.reaped.injEq]
    intro reaped _ died hdied
    by_cases hfound : found = child
    swap
    · exact wp_any_of_forall fun _ _ => wp_any_of_forall fun _ _ _ h =>
        absurd h.1 hfound
    subst hfound
    obtain rfl : task = died := by simpa [htask] using hdied
    refine wp_mono (free_page_when _ hfits hd hpgdir) ?_
    rintro _ _ ⟨hstart, hlen, hbits⟩
    refine wp_mono (free_page_when _ ?_ ?_ (hchild.trans (by rw [← hstart]))) ?_
    · unfold VirtualAddr.Fits at *
      rw [hstart, hlen]
      exact hfits
    · rwa [hlen]
    · rintro _ last ⟨_, _, hbits'⟩ _ _ i hic hid
      exact (hbits' i hic).trans (hbits i hid)

/-! ## A child that is forked, exits and is reaped -/

/-- The running process is one that `process_execute` or a fork made, and the virtual pages of the
kernel lie inside the address space. -/
structure ParentState (s : Vm) : Prop where
  fits : s.kernelVaddr.Fits
  parent : ∃ parent, s.tasks s.cur = some parent ∧
    parent.userprogVaddr.vaddrMap.btmpBytesLen = userMapLen

/-- The running process forks, the child exits, and a wait of the parent reaps it. The parent may
have waited before the exit, which blocks it. -/
def ForkExitWait (s last : Vm) : Prop :=
  ∃ child pid pid' s1 s2 s3,
    sysFork s = .done (some (child, pid)) s1 ∧
    (s2 = s1 ∨ (do switchTo s.cur; sysWait) s1 = .done .blocked s2) ∧
    (do switchTo child; sysExit) s2 = .done () s3 ∧
    (do switchTo s.cur; sysWait) s3 = .done (.reaped child pid') last

/-- The pools and the virtual pages of the kernel are what they were. -/
def Conserved (s last : Vm) : Prop :=
  last.kernelPool.poolMap = s.kernelPool.poolMap ∧ last.userPool.poolMap = s.userPool.poolMap ∧
    last.kernelVaddr.vaddrMap = s.kernelVaddr.vaddrMap

/-- A wait that blocks changes the status of the process and nothing else. -/
theorem sys_wait_blocked (p : Nat) (s : Vm) :
    wp any (do switchTo p; sysWait) s fun r last => r = .blocked →
      SameSpaces s last ∧ last.kernelVaddr = s.kernelVaddr := by
  refine wp_seq (switch_to_same p s) ?_
  intro _ mid ⟨hkernel, htasks, _⟩
  simp only [sysWait, wp_bind, wp_running_thread, and_any, wp_state]
  intro parent hparent
  cases mid.threadAllList.find? fun p => (mid.tasks p).any fun t =>
      t.parentPid == parent.pid && t.status == .hanging with
  | some found =>
    simp only [wp_bind, wp_non_null, and_any]
    exact fun _ _ => wp_any_of_forall fun _ _ h => by simp at h
  | none =>
    simp only [wp_ite]
    refine ⟨fun _ _ => ⟨(SameSpaces.of_tasks htasks).trans (.store hparent rfl), hkernel⟩,
      fun _ h => by simp at h⟩

/-- The last page of the bitmap of the child stays taken. -/
theorem bitmap_page_lost (hparent : ParentState s) (hrun : ForkExitWait s last) :
    ∃ i, bitmapScanTest s.kernelVaddr.vaddrMap i = false ∧
      bitmapScanTest last.kernelVaddr.vaddrMap i = true := by
  obtain ⟨child, pid, pid', s1, s2, s3, hfork, hblocked, hexit, hwait⟩ := hrun
  obtain ⟨hfits, parent, hcur, hlen⟩ := hparent
  obtain ⟨b, hforked⟩ := wp_any_iff.1 (sys_fork_forked s hfits) _ _ hfork child pid rfl
  obtain ⟨c, hc, houtc, hchild⟩ := hforked.pcb
  obtain ⟨parent', task, hcur', htask, huser, hbits, d, hd, houtd, hpgdir⟩ := hforked.task
  obtain rfl : parent = parent' := by simpa [hcur] using hcur'
  have hpages : bitmapPgCnt = 23 := by decide
  have hroom := hforked.room
  -- the parent may have waited before the child exits
  have h2 : SameSpaces s1 s2 ∧ s2.kernelVaddr = s1.kernelVaddr := by
    rcases hblocked with rfl | hblocked
    · exact ⟨fun _ => rfl, rfl⟩
    · exact wp_any_iff.1 (sys_wait_blocked s.cur s1) _ _ hblocked rfl
  obtain ⟨task2, htask2, hspace2⟩ : ∃ task2, s2.tasks child = some task2 ∧
      task2.space = task.space := by
    have := h2.1 child
    rw [htask] at this
    simpa [Option.map_eq_some_iff] using this
  simp only [Task.space, Prod.mk.injEq] at hspace2
  -- the exit frees all pages of the bitmap but the last
  have hstart2 : s2.kernelVaddr.vaddrStart = s.kernelVaddr.vaddrStart := by
    rw [h2.2, hforked.vaddrStart]
  have hlen2 : s2.kernelVaddr.vaddrMap.btmpBytesLen = s.kernelVaddr.vaddrMap.btmpBytesLen := by
    rw [h2.2, hforked.len]
  have hfits2 : s2.kernelVaddr.Fits := by
    unfold VirtualAddr.Fits at *
    rwa [hstart2, hlen2]
  obtain ⟨hspaces3, hkernel3⟩ := wp_any_iff.1
    (sys_exit_mark s2 htask2 hfits2 (b := b) (by omega)
      (by rw [hstart2, hspace2.2.2, hbits])) _ _ hexit
  rw [hspace2.2.1, huser, hlen, show userMapLen / 4096 = 22 by decide] at hkernel3
  obtain ⟨task3, htask3, hspace3⟩ : ∃ task3, s3.tasks child = some task3 ∧
      task3.space = task2.space := by
    have := hspaces3 child
    rw [htask2] at this
    simpa [Option.map_eq_some_iff] using this
  simp only [Task.space, Prod.mk.injEq] at hspace3
  -- the wait frees the page directory and the control block
  have hwait' := wp_any_iff.1
    (sys_wait_reaped (c := c) (d := d) s.cur s3 htask3 (by rw [hkernel3]; exact hfits2.mark _ _ _)
      (by rw [hkernel3, VirtualAddr.mark_len, hlen2]; exact hc)
      (by rw [hkernel3, VirtualAddr.mark_len, hlen2]; exact hd)
      (by rw [hkernel3, VirtualAddr.mark_vaddr_start, hstart2]; exact hchild)
      (by rw [hkernel3, VirtualAddr.mark_vaddr_start, hstart2, hspace3.1, hspace2.1, hpgdir]))
    _ _ hwait pid' rfl
  refine ⟨b + 22, hforked.free 22 (by decide), ?_⟩
  unfold Outside at houtc houtd
  rw [hwait' _ (by omega) (by omega), hkernel3, h2.2, VirtualAddr.mark_bit, if_neg (by omega)]
  exact hforked.taken 22 (by decide)

end LosKernel.Mm
