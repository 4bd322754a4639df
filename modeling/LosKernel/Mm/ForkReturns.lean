import LosKernel.Mm.Cloning

/-!
# Forks that succeed

With enough memory `copy_process` and `sys_fork` fail for one reason only: a descriptor that
refers to a slot of `file_table` without an inode. Otherwise the child has a copy of the user
pages, of the kernel stack and of the bitmap of virtual pages.
-/

namespace LosKernel.Mm

open Prog hiding update
open Function (update update_of_ne update_self)

variable {parent : Task} {xc xp dir buf x child n bits : Nat} {g' g : Ghost} {ok : Stop → Prop}
  {s last mid : Vm} {o : Owner}

/-! ## The whole process -/

/-- The end of `copy_process`: what the directory `dir` of the child maps, and what is written. -/
structure BodyCopied (g : Ghost) (x xc buf q dir : Nat) (parent : Task) (s last : Vm) : Prop where
  same : SameTasks s last
  cr3 : last.cr3 = s.cr3
  pages : ∀ n ∈ forkPages parent, ∃ fp f, UserMap s.mem s.cr3 n fp ∧ UserMap last.mem dir n f ∧
    last.mem f = s.mem fp
  others : ∀ n, n ∉ forkPages parent → ∀ f, ¬UserMap last.mem dir n f
  pcb : last.mem xc = childStack s.intrExit (s.mem xc)
  kept : UsedKept (fun f u => f = xc ∨ Copying x dir q f u) g s last
  maps : ∀ n f, n ≠ buf → KernelMap s.mem n f → KernelMap last.mem n f

/-- The end of `copy_process` succeeds exactly when the descriptors of the parent are open or
closed. -/
theorem Frames.copy_body_returns (h : Frames True g s) {p q : Nat} {child : Task} (hpq : p ≠ q)
    (hlivep : g.live p) (hp : g.dir p = some s.cr3) (hparent : parent.pgdir = g.dirPage p * 4096)
    (huser : UserLayout parent) (hlive : g.live q) (hq : g.dir q = some dir)
    (hchild : child.pgdir = g.dirPage q * 4096) (hbuf : g.owner buf = some (.range (buf * 4096)))
    (hx : Mapped g s.mem buf x) (hpcb : g.owner n = some (.pcb q)) (hxc : Mapped g s.mem n xc)
    (hroom : Room s dir (forkPages parent)) (hfree : (forkPages parent).length ≤ s.userPool.free)
    (hmarked : ∀ m ∈ forkPages parent, ∃ f, UserMap s.mem s.cr3 m f)
    (hempty : ∀ m f, ¬UserMap s.mem dir m f) {Q : Option Task → Vm → Prop}
    (hgood : FdsOpen s child → ∀ last, BodyCopied g x xc buf q dir parent s last →
      Q (some { child with selfKstack := n * 4096 + 4 * 1000 }) last)
    (hbad : ¬FdsOpen s child → ok .badAccess ∧ ok .assertFailed) :
    wp ok (do
      copyBodyStack3 child parent (buf * 4096) parent.userprogVaddr.vaddrMap.btmpBytesLen 0
      let child ← buildChildStack (n * 4096) child
      updateInodeOpenCnts child 5 3
      mfreePage .kernel (buf * 4096) 1
      pure (some child)) s Q := by
  have hbuffree := freeable_of_owner hbuf (by simp) (by simp)
  have hplainc := h.plain_mapped hxc (by simp [hpcb])
  have hnbuf : n ≠ buf := by
    rintro rfl
    simp [hbuf] at hpcb
  have hlt : ∀ idx ∈ takenPages parent.userprogVaddr.vaddrMap 0
      (parent.userprogVaddr.vaddrMap.btmpBytesLen * 8), idx < 0xb7fb8 := by
    intro idx hidx
    obtain ⟨k, hk, rfl⟩ := List.mem_range'.1 (List.mem_filter.1 hidx).1
    rw [huser.2, show userMapLen * 8 = 0xb7fb8 by decide] at hk
    omega
  rw [wp_bind, copy_body_stack3_eq]
  refine wp_mono (wp_of_never (wp_and_any
    (copy_list_returns hpq _ g s h hlivep hp hparent huser.1 hlive hq hchild hbuffree hx hlt
      (List.Nodup.filter _ List.nodup_range') hroom (by simpa [forkPages] using hfree)
      (fun idx hidx => hmarked _ (List.mem_map.2 ⟨idx, hidx, rfl⟩)) fun idx _ => hempty _)
    (copy_list_spec _ g s h hp hparent huser.1 hlive hq hchild hbuffree hlt fun _ => hroom))) ?_
  intro _ mid hspec
  obtain ⟨hcopied, hquiet, hcr3, g4, hext, h4, -⟩ := hspec
  have hxc4 : Mapped g4 mid.mem n xc :=
    ⟨(kernel_map_congr hcopied.low).2 hxc.1, hext.use _ _ hxc.2⟩
  have hplain4 := h4.plain_mapped hxc4 (by simp [hext.owner, hpcb])
  rw [wp_bind, h4.wp_build_child_stack hxc4 hplain4, wp_bind]
  -- the page of the control block is the one of the parent still
  have hpage : mid.mem xc = s.mem xc := by
    refine hcopied.kept xc _ hxc.2 ?_
    rintro (heq | heq | ⟨i, hi⟩)
    · exact hxc.ne hx hnbuf heq
    · exact hplainc.dir q (heq ▸ hq)
    · simp at hi
  have hfds : (∀ k < 5, FdOpen { mid with mem := update mid.mem xc (childStack mid.intrExit
      (mid.mem xc)) } (({ child with selfKstack := n * 4096 + 4 * 1000 } : Task).fdTable (3 + k))) ↔
      FdsOpen s child := by
    simp only [FdsOpen, FdOpen, hquiet.fdInode]
  refine wp_update_inode_open_cnts _ 5 3 _ (fun hopen counts => ?_)
    fun hnot => hbad (hfds.not.1 hnot)
  have h5 : Frames True g4 { mid with
      mem := update mid.mem xc (childStack mid.intrExit (mid.mem xc)), iOpenCnts := counts } :=
    (h4.write_page hplain4 _).congr rfl rfl rfl rfl rfl
  have hbuf4 : ∀ i < 1, Freeable g4 (buf + i) := by
    intro i hi
    obtain rfl : i = 0 := by omega
    unfold Freeable at *
    rwa [hext.owner, hext.dir]
  refine wp_seq (h5.wp_mfree_page_kernel ok buf (by decide) hbuf4) ?_
  intro _ last hlast
  obtain ⟨⟨hsame, hlastcr3, -⟩, hcleared, -⟩ := hlast
  have hframes : ∀ f, 0x200 ≤ f → f ≠ xc → last.mem f = mid.mem f :=
    fun f hf hne => (hcleared.frames f hf).trans (update_of_ne hne _ _)
  have hq4 : g4.dir q = some dir := by rw [hext.dir, hq]
  have hlive4 : g4.live q := hext.live ▸ hlive
  have hmaps : ∀ m y, UserMap last.mem dir m y ↔ UserMap mid.mem dir m y := by
    intro m y
    have hkept : UsedKept noFrame g4 { mid with
        mem := update mid.mem xc (childStack mid.intrExit (mid.mem xc)) } last :=
      fun f u hf _ => hcleared.frames f (h4.used_frame hf)
    rw [h5.user_map_kept hlive4 hq4 hkept (by simp) (by simp),
      h4.user_map_write_page hlive4 hq4 hplain4]
  refine hgood (hfds.1 hopen) last ⟨?_, hlastcr3.trans hcr3, fun m hm => ?_,
    fun m hm f hf => ?_, ?_,
    fun f u hf hout => ?_, fun m f hm hmap => ?_⟩
  · exact hquiet.same_tasks.trans (hsame.after ⟨rfl, rfl, rfl, rfl, rfl, rfl⟩)
  · obtain ⟨idx, hidx, rfl⟩ := List.mem_map.1 hm
    obtain ⟨fp, f, hfp, hf, hwords⟩ := hcopied.copies idx hidx
    have huse := h4.userPages trivial q dir hlive4 hq4 _ f hf
    have hne : f ≠ xc := by
      rintro rfl
      simp [hxc4.2] at huse
    exact ⟨fp, f, hfp, (hmaps _ f).2 hf, by rw [hframes f (h4.used_frame huse) hne, hwords]⟩
  · rw [hmaps, hcopied.others m ?_ f] at hf
    · exact hempty m f hf
    · rintro idx hidx rfl
      exact hm (List.mem_map.2 ⟨idx, hidx, rfl⟩)
  · rw [hcleared.frames xc hplainc.pool]
    dsimp only
    rw [update_self, hquiet.intrExit, hpage]
  · rw [hframes f (h.used_frame hf) fun heq => hout (.inl heq),
      hcopied.kept f u hf fun hcopy => hout (.inr hcopy)]
  · have hpool := hplainc.pool
    refine (kernel_map_of_entry fun hn => hcleared.others m hn fun i hi => by omega).2 ?_
    refine (kernel_map_congr fun y hy => ?_).2 hmap
    exact (update_of_ne (by omega) _ _).trans (hcopied.low y hy)

theorem Mapped.kept {f : Nat} (h : Mapped g s.mem n f) (ho : g.owner n = some o)
    (hgrows : Grows g g') (hmaps : MapsKept g s last) : Mapped g' last.mem n f :=
  ⟨hmaps n f (by simp [ho]) h.1, hgrows.use f _ h.2⟩

theorem MapsKept.trans (h : MapsKept g s mid) (hgrows : Grows g g') (h' : MapsKept g' mid last) :
    MapsKept g s last := by
  intro n f hn hmap
  obtain ⟨o, ho⟩ := Option.ne_none_iff_exists'.1 hn
  exact h' n f (by simp [hgrows.owner n o ho]) (h n f hn hmap)

/-- The control block `task` of the child refers to copies of the user pages and of the bitmap of
the parent. -/
structure SpaceCopied (g : Ghost) (child : Nat) (parent task : Task) (s last : Vm) : Prop where
  cr3 : last.cr3 = s.cr3
  block : ∃ bits pgdir, task = { childBlock parent (incPid s.nextPid) bits with
    pgdir := pgdir, selfKstack := child + 4000 }
  space : ∃ dir, KernelMap last.mem (task.pgdir / 4096) dir ∧
    (∀ n ∈ forkPages parent, ∃ fp f, UserMap s.mem s.cr3 n fp ∧ UserMap last.mem dir n f ∧
      last.mem f = s.mem fp) ∧
    ∀ n, n ∉ forkPages parent → ∀ f, ¬UserMap last.mem dir n f
  bitmap : ∀ i < bitmapPgCnt, ∀ y, Mapped g s.mem (parent.bitsAddr / 4096 + i) y →
    ∃ x, KernelMap last.mem (task.bitsAddr / 4096 + i) x ∧ last.mem x = s.mem y
  maps : MapsKept g s last

/-- What `copy_process` does when it succeeds. -/
structure ProcessCopied (g : Ghost) (child xc xp : Nat) (parent task : Task)
    (s last : Vm) : Prop extends SpaceCopied g child parent task s last where
  same : SameTasks s last
  pcb : last.mem xc = childStack s.intrExit (s.mem xp)
  kept : UsedKept (fun f u => f = xc ∨ ∃ i, u = .table child i) g s last

/-- The state of `copy_process` before the user pages are copied: there is a buffer at `buf`, the
control block and the bitmap at `bits` are copies, and the page directory `dir` is new. -/
structure Prepared (g : Ghost) (child xc xp x buf bits dir : Nat) (parent : Task)
    (s : Vm) (g' : Ghost)
    (last : Vm) : Prop where
  grown : Grown True g s g' last
  kept : UsedKept (fun f _ => f = xc) g s last
  maps : MapsKept g s last
  pcb : last.mem xc = s.mem xp
  bitmap : ∀ i < bitmapPgCnt, ∀ y, Mapped g s.mem (parent.bitsAddr / 4096 + i) y →
    ∃ x, Mapped g' last.mem (bits / 4096 + i) x ∧ x ≠ dir ∧ last.mem x = s.mem y
  bits : ∀ i < bitmapPgCnt, g'.owner (bits / 4096 + i) = some (.bits child)
  buffer : Mapped g' last.mem (buf / 4096) x
  range : g'.owner (buf / 4096) = some (.range buf)
  unheld : g.owner (buf / 4096) = none
  unused : g.use x = none
  new : g.use dir = none

/-- The buffer is not a page that somebody else holds. -/
theorem Prepared.ne_buffer (h : Prepared g child xc xp x buf bits dir parent s g' last)
    (ho : g'.owner n = some o) (hne : o ≠ .range buf) : n ≠ buf / 4096 := by
  rintro rfl
  exact hne (by simpa [ho] using h.range)

theorem Prepared.source (h : Prepared g child xc xp x buf bits dir parent s g' last)
    (hf : Frames True g s) (hlive : g.live s.cur) (hp : g.dir s.cur = some s.cr3) (hxc : Plain g xc)
    (m y : Nat) : UserMap last.mem s.cr3 m y ↔ UserMap s.mem s.cr3 m y :=
  hf.user_map_kept hlive hp h.kept (fun _ heq => hxc.dir _ (heq ▸ hp))
    (fun _ _ ht heq => hxc.table _ _ (heq ▸ ht)) m y

/-- The last part of `copy_process` completes what was prepared. -/
theorem Prepared.copied {pgdir : Nat} {g4 : Ghost}
    (h : Prepared g child xc xp x buf bits dir parent s g' mid) (hf : Frames True g s)
    (hlive : g.live s.cur) (hp : g.dir s.cur = some s.cr3)
    (hpcb : g.owner (child / 4096) = some (.pcb child)) (hxc : Mapped g s.mem (child / 4096) xc)
    (huse : g4.use = g'.use) (hdir : Mapped g' mid.mem (pgdir / 4096) dir)
    (hdiro : g'.owner (pgdir / 4096) = some (.dir child))
    (hbody : BodyCopied g4 x xc (buf / 4096) child dir parent mid last) :
    ProcessCopied g child xc xp parent { childBlock parent (incPid s.nextPid) bits with
      pgdir := pgdir, selfKstack := child + 4000 } s last := by
  have hgrows := h.grown.grows
  have hxc' := hxc.kept hpcb hgrows h.maps
  refine ⟨⟨hbody.cr3.trans h.grown.cr3, ⟨bits, pgdir, rfl⟩,
    ⟨dir, hbody.maps _ dir (h.ne_buffer hdiro (by simp)) hdir.1, fun n hn => ?_, hbody.others⟩,
    fun i hi y hy => ?_, fun n f hn hmap => ?_⟩, h.grown.same.trans hbody.same, ?_,
    fun f u hu hout => ?_⟩
  · obtain ⟨fp, f, hfp, hf', hwords⟩ := hbody.pages n hn
    rw [h.grown.cr3, h.source hf hlive hp (hf.plain_mapped hxc (by simp [hpcb]))] at hfp
    have huser := hf.userPages trivial _ _ hlive hp n fp hfp
    refine ⟨fp, f, hfp, hf', hwords.trans (h.kept fp _ huser ?_)⟩
    rintro rfl
    simp [hxc.2] at huser
  · obtain ⟨x', hx', hnot, hwords⟩ := h.bitmap i hi y hy
    have hbuf := h.ne_buffer (h.bits i hi) (by simp)
    refine ⟨x', hbody.maps _ x' hbuf hx'.1, ?_⟩
    rw [hbody.kept x' _ (huse ▸ hx'.2) ?_, hwords]
    rintro (heq | heq | heq | ⟨j, hj⟩)
    · refine hx'.ne hxc' (fun hpage => ?_) heq
      have howner := h.bits i hi
      rw [hpage, hgrows.owner _ _ hpcb] at howner
      simp at howner
    · exact hx'.ne h.buffer hbuf heq
    · exact hnot heq
    · simp at hj
  · refine hbody.maps n f ?_ (h.maps n f hn hmap)
    rintro rfl
    exact hn h.unheld
  · rw [hbody.pcb, h.grown.same.intrExit, h.pcb]
  · rw [hbody.kept f u (huse ▸ hgrows.use f u hu) ?_, h.kept f u hu fun heq => hout (.inl heq)]
    rintro (heq | heq | heq | htable)
    · exact hout (.inl heq)
    · simp [heq, h.unused] at hu
    · simp [heq, h.new] at hu
    · exact hout (.inr htable)

/-- With enough memory, `copy_process` succeeds exactly when the descriptors of the parent are
open or closed. -/
theorem Frames.copy_process_returns (h : Frames True g s) (hunmapped : Unmapped s)
    (hlivep : g.live s.cur) (hp : g.dir s.cur = some s.cr3)
    (hparent : parent.pgdir = g.dirPage s.cur * 4096) (huser : UserLayout parent)
    (hne : s.cur ≠ child) (haligned : child % 4096 = 0)
    (hpcb : g.owner (child / 4096) = some (.pcb child)) (hxc : Mapped g s.mem (child / 4096) xc)
    (hdir : g.dir child = none) (hpcbp : g.owner (s.cur / 4096) = some (.pcb s.cur))
    (hxp : Mapped g s.mem (s.cur / 4096) xp) (hbitsal : parent.bitsAddr % 4096 = 0)
    (hsrc : ∀ i < bitmapPgCnt, g.owner (parent.bitsAddr / 4096 + i) = some (.bits s.cur))
    (hbits : ([1, bitmapPgCnt, 1].foldlM reserveBits s.kernelVaddr.vaddrMap).isSome = true)
    (hfree : forkTables s parent + 25 ≤ s.kernelPool.free)
    (hlen : (forkPages parent).length ≤ s.userPool.free)
    (hmarked : ∀ m ∈ forkPages parent, ∃ f, UserMap s.mem s.cr3 m f) {Q : Option Task → Vm → Prop}
    (hgood : FdsOpen s parent → ∀ task last, ProcessCopied g child xc xp parent task s last →
      Q (some task) last) (hbad : ¬FdsOpen s parent → ok .badAccess ∧ ok .assertFailed) :
    wp ok (copyProcess child parent) s Q := by
  have hcnt : bitmapPgCnt = 23 := by decide
  obtain ⟨m1, hbits1, hbits'⟩ := reserve_all_cons.1 hbits
  obtain ⟨m2, hbits2, hbits''⟩ := reserve_all_cons.1 hbits'
  obtain ⟨m3, hbits3, -⟩ := reserve_all_cons.1 hbits''
  -- the buffer
  rw [copyProcess]
  refine wp_seq (wp_of_never (h.take_pages_returns hunmapped (by decide) (by decide)
    (by simp [hbits1]) (by omega) fun v => .range v)) ?_
  intro r s1 hspec
  obtain ⟨buf, g1, rfl, hbuf⟩ := hspec
  have hgrown1 := hbuf.grown
  obtain ⟨x, hx1, hxnew, -⟩ := hbuf.frame (by simp) (show 0 < 1 by decide)
  have hbufo := hbuf.served.owner 0 (by decide)
  have hfresh := hbuf.served.fresh 0 (by decide)
  have hbal := hbuf.served.aligned
  have hfree1 := hbuf.served.free
  obtain rfl : m1 = s1.kernelVaddr.vaddrMap := by simpa [hbits1] using hbuf.served.bits
  -- the control block and the bitmap
  have hxc1 := hxc.kept hpcb hgrown1.grows hbuf.maps
  have hxp1 := hxp.kept hpcbp hgrown1.grows hbuf.maps
  have hwalk : walk s1.mem s1.cr3 s1.cur = some xp :=
    hgrown1.frames.walk_mapped (by rw [hgrown1.same.cur]) hxp1.1
  refine wp_seq (wp_of_never (hgrown1.frames.copy_pcb_returns hbuf.unmapped
    (hgrown1.grows.owner _ _ hpcb) hxc1 hwalk hbitsal (fun i hi =>
      ⟨s.cur, hgrown1.grows.owner _ _ (hsrc i hi)⟩) (by simp [hbits2]) (by omega))) ?_
  intro r s2 hspec
  obtain ⟨task, g2, rfl, hcopied⟩ := hspec
  obtain ⟨bits, rfl⟩ := hcopied.block
  rw [hbuf.nextPid] at hcopied ⊢
  have hgrown2 := hgrown1.trans hcopied.grown
  have hfree2 := hcopied.served.free
  obtain rfl : m2 = s2.kernelVaddr.vaddrMap := by simpa [hbits2] using hcopied.served.bits
  -- the page directory
  have hdir2 : g2.dir child = none := by rw [hgrown2.grows.dir, hdir]
  refine wp_seq (wp_of_never (wp_and_any
    (hcopied.grown.frames.create_page_dir_returns hcopied.unmapped (by simp [hbits3]) (by omega))
    (hcopied.grown.frames.create_page_dir (fun _ => .dir child) fun v q hq => by
      obtain rfl : child = q := by simpa using hq
      exact hdir2))) ?_
  intro pgdir s3 hspec
  obtain ⟨⟨hpgdir, -, hkept3, hmaps3, -, hnew3⟩, hsame3, hcr3, huser3, g3, hgrows3, h3,
    hserved3⟩ := hspec
  obtain ⟨hpgal, hfree3, -, howner3, dir, hmap, hisdir, hempty⟩ := hserved3 hpgdir
  have hgrown3 := hgrown2.trans (⟨hgrows3, h3, hsame3, hcr3, huser3⟩ : Grown True g2 s2 g3 s3)
  have hdirnew := hnew3 dir hmap.1
  have hx2 := hx1.kept hbufo hcopied.grown.grows hcopied.maps
  have hbufo2 := hcopied.grown.grows.owner _ _ hbufo
  have hprep : Prepared g child xc xp x buf bits dir parent s g3 s3 := by
    refine ⟨hgrown3, ?_,
      (hbuf.maps.trans hgrown1.grows hcopied.maps).trans hgrown2.grows hmaps3, ?_,
      fun i hi y hy => ?_, fun i hi => hgrows3.owner _ _ (hcopied.served.owner i hi),
      hx2.kept hbufo2 hgrows3 hmaps3, hgrows3.owner _ _ hbufo2, hfresh, hxnew, ?_⟩
    · exact ((hbuf.kept.mono fun _ _ => False.elim).trans hgrown1.grows.use hcopied.kept).trans
        hgrown2.grows.use (hkept3.mono fun _ _ => False.elim)
    · rw [hkept3 xc _ (hgrown2.grows.use _ _ hxc.2) id, hcopied.pcb, hbuf.kept xp _ hxp.2 id]
    · have howner := hcopied.served.owner i hi
      obtain ⟨x', hx'⟩ := (hcopied.grown.frames.owned _ _ howner).2.2 (by simp)
      have hy1 := hy.kept (hsrc i hi) hgrown1.grows hbuf.maps
      refine ⟨x', hx'.kept howner hgrows3 hmaps3, fun heq => ?_, ?_⟩
      · simp [← heq, hx'.2] at hdirnew
      · rw [hkept3 x' _ hx'.2 id, hcopied.bitmap i hi x' y hx'.1 hy1, hbuf.kept y _ hy.2 id]
    · by_contra hused
      obtain ⟨u, hu⟩ := Option.ne_none_iff_exists'.1 hused
      simp [hgrown2.grows.use dir u hu] at hdirnew
  have hxc3 := hxc.kept hpcb hgrown3.grows hprep.maps
  -- the address space of the child
  have hdir3 : g3.dir child = none := by rw [hgrows3.dir, hdir2]
  have h4 := h3.add_process hdir3 hisdir hmap howner3 hempty
  have hself : (g3.addDir child (pgdir / 4096) dir).dir child = some dir := by simp [Ghost.addDir]
  obtain ⟨hpdir, hppage, hplive⟩ := g3.add_dir_other (pgdir / 4096) dir s.cur hne
  have hfds : FdsOpen s3 { childBlock parent (incPid s.nextPid) bits with pgdir := pgdir } ↔
      FdsOpen s parent := by
    simp only [FdsOpen, FdOpen, hgrown3.same.fdInode]
  rw [if_neg hpgdir, show buf = buf / 4096 * 4096 by omega,
    show child = child / 4096 * 4096 by omega]
  refine h4.copy_body_returns hne ?_ ?_ ?_ huser (.inr rfl) hself ?_ ?_ hprep.buffer
    (hgrown3.grows.owner _ _ hpcb) hxc3 ?_ ?_ ?_ ?_
    (fun hopen last hbody => ?_) fun hnot => hbad (hfds.not.1 hnot)
  · rw [hplive, hgrown3.grows.live]
    exact hlivep
  · rw [hpdir, hgrown3.grows.dir, hp, hgrown3.cr3]
  · rw [hppage, hgrown3.grows.dirPage, hparent]
  · simp [Ghost.addDir]
    omega
  · rw [show buf / 4096 * 4096 = buf by omega]
    exact hprep.range
  · refine room_of_fork_tables hgrown3.userPool ?_
    omega
  · rw [hgrown3.userPool]
    exact hlen
  · intro m hm
    obtain ⟨f, hf⟩ := hmarked m hm
    exact ⟨f, by rwa [hgrown3.cr3, hprep.source h hlivep hp (h.plain_mapped hxc (by simp [hpcb]))]⟩
  · rintro m f ⟨t, ⟨hlt, hpresent, _⟩, _⟩
    rw [hempty _ hlt] at hpresent
    simp at hpresent
  · rw [show child / 4096 * 4096 + 4 * 1000 = child + 4000 by omega]
    have huse : (g3.addDir child (pgdir / 4096) dir).use = g3.use := rfl
    exact hgood (hfds.1 hopen) _ last (hprep.copied h hlivep hp hpcb hxc huse hmap howner3 hbody)

/-! ## The system call -/

/-- There is memory for a fork: 26 pages of the kernel, a page table for every 4 MB of the user half
that holds a page, and the frames of the pages. -/
structure ForkMemory (s : Vm) (parent : Task) : Prop where
  virtual : ([1, 1, bitmapPgCnt, 1].foldlM reserveBits s.kernelVaddr.vaddrMap).isSome = true
  kernel : forkTables s parent + 26 ≤ s.kernelPool.free
  user : (forkPages parent).length ≤ s.userPool.free

/-- What `sys_fork` does when it succeeds. -/
structure ForkCopied (g : Ghost) (child xp : Nat) (parent task : Task) (s last : Vm) : Prop
    extends SpaceCopied g child parent task s last where
  tasks : last.tasks = update s.tasks child (some task)
  threads : last.threadAllList = s.threadAllList ++ [child]
  pcb : ∃ xc, KernelMap last.mem (child / 4096) xc ∧ last.mem xc = childStack s.intrExit (s.mem xp)
  kept : UsedKept (fun _ u => ∃ i, u = .table child i) g s last
  intrExit : last.intrExit = s.intrExit

/-- With enough memory, `sys_fork` succeeds exactly when the descriptors of the parent are open or
closed. -/
theorem sys_fork_returns (hf : Frames True g s) (ht : TaskInv g s) (hunmapped : Unmapped s)
    (hcpu : OnCpu g s parent) (hpgdir : parent.pgdir ≠ 0) (hxp : Mapped g s.mem (s.cur / 4096) xp)
    (hmemory : ForkMemory s parent)
    (hmarked : ∀ m ∈ forkPages parent, ∃ f, UserMap s.mem s.cr3 m f)
    {Q : Option (Nat × Int) → Vm → Prop}
    (hgood : FdsOpen s parent → ∀ child task last, ForkCopied g child xp parent task s last →
      Q (some (child, task.pid)) last)
    (hbad : ¬FdsOpen s parent → ok .badAccess ∧ ok .assertFailed) : wp ok sysFork s Q := by
  obtain ⟨hin, hholds, hlive⟩ := hcpu.holds ht hpgdir
  obtain ⟨hmain, hpage, -, huser, -⟩ := hholds.space hpgdir
  obtain ⟨hbitsal, hbitso⟩ := hholds.bits hpgdir hcpu.running
  obtain ⟨hcural, hpcbp⟩ := hholds.pcb.resolve_left hmain
  obtain ⟨m1, hbits1, hbits⟩ := reserve_all_cons.1 hmemory.virtual
  have hkernel := hmemory.kernel
  simp only [sysFork, wp_bind, wp_running_thread, hcpu.block, of_some]
  refine wp_mono (wp_of_never (hf.take_pages_returns hunmapped (by decide) (by decide)
    (by simp [hbits1]) (by omega) fun v => .pcb v)) ?_
  intro r s1 hspec
  obtain ⟨child, g1, rfl, hfetched⟩ := hspec
  have hgrown := hfetched.grown
  have hgrows := hgrown.grows
  obtain ⟨xc, hxc, hxcnew, -⟩ := hfetched.frame (by simp) (show 0 < 1 by decide)
  have hpcb := hfetched.served.owner 0 (by decide)
  have hfresh := hfetched.served.fresh 0 (by decide)
  rw [Nat.add_zero] at hxc hpcb hfresh
  obtain ⟨hnew, -⟩ := ht.fresh hfresh hxc.1.1
  obtain rfl : m1 = s1.kernelVaddr.vaddrMap := by simpa [hbits1] using hfetched.served.bits
  have hcur := hgrown.same.cur
  have hne : s.cur ≠ child := fun heq => hnew (heq ▸ hin)
  -- the pages of the parent are where they were
  have hsource : ∀ m y, UserMap s1.mem s.cr3 m y ↔ UserMap s.mem s.cr3 m y :=
    hf.user_map_kept hlive (hcpu.process hpgdir) hfetched.kept (by simp) (by simp)
  have htables : forkTables s1 parent = forkTables s parent := by
    unfold forkTables
    rw [hgrown.userPool]
  have hfree := hfetched.served.free
  have hfds : FdsOpen s1 parent ↔ FdsOpen s parent := by
    simp only [FdsOpen, FdOpen, hgrown.same.fdInode]
  simp only [wp_bind, hpgdir, ne_eq]
  have hxp1 : Mapped g1 s1.mem (s1.cur / 4096) xp := by
    rw [hcur]
    exact hxp.kept hpcbp hgrows hfetched.maps
  refine hgrown.frames.copy_process_returns hfetched.unmapped ?_ ?_ ?_ huser ?_
    hfetched.served.aligned hpcb hxc ?_ ?_ hxp1 hbitsal ?_ hbits ?_ ?_ ?_
    (fun hopen task last hcopied => ?_) fun hnot => hbad (hfds.not.1 hnot)
  · rw [hcur, hgrows.live]
    exact hlive
  · rw [hcur, hgrows.dir, hcpu.process hpgdir, hgrown.cr3]
  · rw [hcur, hgrows.dirPage, hpage]
  · rwa [hcur]
  · rw [hgrows.dir]
    exact (ht.outside child hnew).1
  · rw [hcur]
    exact hgrows.owner _ _ hpcbp
  · intro i hi
    rw [hcur]
    exact hgrows.owner _ _ (hbitso i hi)
  · omega
  · rw [hgrown.userPool]
    exact hmemory.user
  · intro m hm
    obtain ⟨f, hmap⟩ := hmarked m hm
    exact ⟨f, by rwa [hgrown.cr3, hsource]⟩
  · have hsame := hgrown.same.trans hcopied.same
    have hblock := hcopied.block
    rw [hfetched.nextPid] at hblock
    refine hgood (hfds.1 hopen) child task _ ⟨⟨hcopied.cr3.trans hgrown.cr3, hblock, ?_,
      fun i hi y hy => ?_, hfetched.maps.trans hgrows hcopied.maps⟩, ?_, ?_, ⟨xc, ?_, ?_⟩,
      fun f u hu hout => ?_, hsame.intrExit⟩
    · obtain ⟨dir, hdir, hpages, hothers⟩ := hcopied.space
      refine ⟨dir, hdir, fun n hn => ?_, hothers⟩
      obtain ⟨fp, f, hfp, hmap, hwords⟩ := hpages n hn
      rw [hgrown.cr3, hsource] at hfp
      have huse := hf.userPages trivial _ _ hlive (hcpu.process hpgdir) n fp hfp
      exact ⟨fp, f, hfp, hmap, hwords.trans (hfetched.kept fp _ huse id)⟩
    · rw [← hfetched.kept y _ hy.2 id]
      exact hcopied.bitmap i hi y (hy.kept (hbitso i hi) hgrows hfetched.maps)
    · rw [← hsame.tasks]
    · rw [← hsame.threadAllList]
    · exact hcopied.maps _ xc (by simp [hpcb]) hxc.1
    · rw [← hgrown.same.intrExit, ← hfetched.kept xp _ hxp.2 id]
      exact hcopied.pcb
    · refine (hcopied.kept f u (hgrows.use f u hu) ?_).trans (hfetched.kept f u hu id)
      rintro (rfl | htable)
      · simp [hxcnew] at hu
      · exact hout htable

end LosKernel.Mm
