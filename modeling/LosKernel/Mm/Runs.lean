import LosKernel.Mm.Forking

/-!
# Runs of the memory system

The threads of a booted system create processes and threads, allocate and free pages, fork, exit
and wait, in any order. `Sys.Run` is the relation between the states of such a run. `SysOk` is its
invariant: `Frames`, `TaskInv`, and that the pages which `malloc_page` handed out are where the
ghost says they are.
-/

namespace LosKernel.Mm

open Prog

variable {p n v : Nat} {P : Nat → Nat → Prop} {strict : Prop} {g g' : Ghost} {s last : Vm}
  {task : Task}

/-! ## Requests -/

/-- Pages that `malloc_page` returned and that `mfree_page` did not take back: `cnt` pages from page
number `start` on, in the user half of `proc`, or in the kernel half for `none`. -/
structure Range where
  proc : Option Nat
  start : Nat
  cnt : Nat
  deriving DecidableEq, Repr

/-- Page number `n` belongs to the range. -/
def Range.Has (r : Range) (n : Nat) : Prop := r.start ≤ n ∧ n < r.start + r.cnt

theorem Range.has_iff {r : Range} : r.Has n ↔ ∃ i < r.cnt, n = r.start + i := by
  unfold Has
  constructor
  · exact fun h => ⟨n - r.start, by omega, by omega⟩
  · rintro ⟨i, hi, rfl⟩
    omega

/-- The memory, and the ranges that are handed out. -/
structure Sys where
  vm : Vm
  ranges : List Range

/-- A request to the memory system. -/
inductive Op where
  | processExecute
  | threadStart
  | makeMainThread
  | mallocPage (t : PoolType) (pages : Nat)
  | mfreePage (r : Range)
  | getAPage (t : PoolType) (vaddr : Nat)
  | getAPageWithoutOpvaddrbitmap (t : PoolType) (vaddr : Nat)
  | fork
  | exit
  | wait
  deriving DecidableEq, Repr

variable {r r' : Range} {allowed : Vm → Nat → Op → Prop} {ranges : List Range} {a b : Sys}

/-- The process in whose address space `malloc_page` of thread `p` takes pages. -/
def PoolType.proc (t : PoolType) (p : Nat) : Option Nat :=
  match t with
  | .kernel => none
  | .user => some p

/-- The ranges that a forked process has from its parent `p`. -/
def inherited (ranges : List Range) (p child : Nat) : List Range :=
  (ranges.filter fun r => r.proc = some p).map fun r => { r with proc := some child }

/-- Thread `p` makes a request; the result is the list of ranges afterwards. -/
def serve (p : Nat) (ranges : List Range) : Op → Call (List Range)
  | .processExecute => do
    processExecute
    pure ranges
  | .threadStart => do
    threadStart
    pure ranges
  | .makeMainThread => do
    makeMainThread
    pure ranges
  | .mallocPage t pages => do
    match ← mallocPage t pages with
    | none => pure ranges
    | some v => pure (⟨t.proc p, v / 4096, pages⟩ :: ranges)
  | .mfreePage r => do
    mfreePage (if r.proc = none then .kernel else .user) (r.start * 4096) r.cnt
    pure (ranges.erase r)
  | .getAPage t vaddr => do
    let _ ← getAPage t vaddr
    pure ranges
  | .getAPageWithoutOpvaddrbitmap t vaddr => do
    let _ ← getAPageWithoutOpvaddrbitmap t vaddr
    pure ranges
  | .fork => do
    match ← sysFork with
    | none => pure ranges
    | some (child, _) => pure (inherited ranges p child ++ ranges)
  | .exit => do
    sysExit
    pure (ranges.filter fun r => r.proc ≠ some p)
  | .wait => do
    let _ ← sysWait
    pure ranges

/-- The scheduler switches to thread `p`, which then makes a request. -/
def perform (p : Nat) (ranges : List Range) (op : Op) : Call (List Range) := do
  switchTo p
  serve p ranges op

/-- Thread `p` has an address space of its own. -/
def IsProcess (s : Vm) (p : Nat) : Prop := ∃ task, s.tasks p = some task ∧ task.pgdir ≠ 0

/-- Thread `p` can be scheduled. -/
def Runnable (s : Vm) (p : Nat) : Prop :=
  (p ∈ s.threadAllList ∨ p = s.mainThread) ∧
    ∀ task, s.tasks p = some task → task.status ≠ .hanging

/-- The requests that the kernel makes on behalf of thread `p`: user pages for processes only,
ranges are freed by whoever they belong to, and addresses are those of the half that the pool is
for. -/
def Op.Valid (a : Sys) (p : Nat) : Op → Prop
  | .mallocPage .user _ => IsProcess a.vm p
  | .mfreePage r => r ∈ a.ranges ∧ (r.proc = none ∨ r.proc = some p)
  | .getAPage _ vaddr => vaddr < 2 ^ 32
  | .getAPageWithoutOpvaddrbitmap .kernel vaddr => 0xc0000000 ≤ vaddr ∧ vaddr < 0xffc00000
  | .getAPageWithoutOpvaddrbitmap .user vaddr => IsProcess a.vm p ∧ vaddr < 0xc0000000
  | .exit => IsProcess a.vm p
  | _ => True

/-- A thread makes a request that is valid and meets the condition `allowed`, and it returns. -/
def Sys.Step (allowed : Vm → Nat → Op → Prop) (a b : Sys) : Prop :=
  ∃ p op, Runnable a.vm p ∧ op.Valid a p ∧ allowed a.vm p op ∧
    perform p a.ranges op a.vm = .done b.ranges b.vm

/-- A run of the memory system. -/
abbrev Sys.Run (allowed : Vm → Nat → Op → Prop) : Sys → Sys → Prop :=
  Relation.ReflTransGen (Sys.Step allowed)

/-! ## Ranges that are handed out -/

/-- Process `p` has marked its virtual page `n`. -/
def Marked (s : Vm) (p n : Nat) : Prop :=
  ∃ task, s.tasks p = some task ∧ bitmapScanTest task.userprogVaddr.vaddrMap (n - 0x8048) = true

theorem MarksKept.marked (h : MarksKept P s last) (hmark : Marked s p n) (hP : ¬P p (n - 0x8048)) :
    Marked last p n := by
  obtain ⟨task, htask, hbit⟩ := hmark
  obtain ⟨task', htask', hkept⟩ := h p task htask
  exact ⟨task', htask', hkept _ hP hbit⟩

/-- The pages of a range are where they were handed out. -/
def RangeOk (strict : Prop) (g : Ghost) (s : Vm) (r : Range) : Prop :=
  match r.proc with
  | none => ∀ n, r.Has n → ∃ v, g.owner n = some (.range v)
  | some p => p ∈ s.threadAllList ∧ g.live p ∧ 0x8048 ≤ r.start ∧ r.start + r.cnt ≤ 0xc0000 ∧
      (strict → ∀ n, r.Has n → (∃ f, g.use f = some (.user p n)) ∧ Marked s p n)

/-- Two ranges of one address space do not overlap. -/
def Range.Apart (strict : Prop) (r r' : Range) : Prop :=
  r.proc = r'.proc → r.proc = none ∨ strict → ∀ n, r.Has n → ¬r'.Has n

theorem Range.Apart.symm (h : r.Apart strict r') : r'.Apart strict r :=
  fun heq hkind n hn hn' => h heq.symm (heq ▸ hkind) n hn' hn

/-- Every range is where it was handed out, and no two of them overlap. -/
structure RangesOk (strict : Prop) (g : Ghost) (s : Vm) (ranges : List Range) : Prop where
  each : ∀ r ∈ ranges, RangeOk strict g s r
  apart : ranges.Pairwise (Range.Apart strict)

theorem RangeOk.keep (h : RangeOk strict g s r)
    (hkernel : r.proc = none → ∀ n, r.Has n → ∀ v, g.owner n = some (.range v) →
      g'.owner n = some (.range v))
    (huser : ∀ p, r.proc = some p → p ∈ s.threadAllList → g.live p →
      p ∈ last.threadAllList ∧ g'.live p)
    (hpages : strict → ∀ p, r.proc = some p → ∀ n, r.Has n → (∀ f, g.use f = some (.user p n) →
      g'.use f = some (.user p n)) ∧ (Marked s p n → Marked last p n)) : RangeOk strict
      g' last r := by
  unfold RangeOk at *
  cases hproc : r.proc with
  | none =>
    rw [hproc] at h
    intro n hn
    obtain ⟨v, hv⟩ := h n hn
    exact ⟨v, hkernel hproc n hn v hv⟩
  | some p =>
    rw [hproc] at h
    obtain ⟨hin, hlive, hlo, hhi, hstrict⟩ := h
    obtain ⟨hin', hlive'⟩ := huser p hproc hin hlive
    refine ⟨hin', hlive', hlo, hhi, fun hs n hn => ?_⟩
    obtain ⟨⟨f, hf⟩, hmark⟩ := hstrict hs n hn
    obtain ⟨huse, hmarks⟩ := hpages hs p hproc n hn
    exact ⟨⟨f, huse f hf⟩, hmarks hmark⟩

/-- A range of the user half belongs to a process with a user half. -/
theorem RangeOk.proc (h : RangeOk strict g s r) (hp : r.proc = some p) :
    p ∈ s.threadAllList ∧ g.live p := by
  simp only [RangeOk, hp] at h
  exact ⟨h.1, h.2.1⟩

section

variable (h : RangesOk strict g s ranges)

include h

/-- The ranges stay where they are, when those of the processes in `gone` are left out. -/
theorem RangesOk.kept {gone : Nat → Prop} (hkept : Kept strict gone g s g' last)
    (hmarks : MarksKept P s last)
    (hgone : ∀ r ∈ ranges, ∀ p, r.proc = some p → ¬gone p ∧ ∀ j, ¬P p j) :
    RangesOk strict g' last ranges := by
  refine ⟨fun r hr => (h.each r hr).keep ?_ ?_ ?_, h.apart⟩
  · exact fun _ n _ v hv => hkept.ranges.owner n v hv
  · intro p hp hin hlive
    have hnot := (hgone r hr p hp).1
    exact ⟨hkept.list p hin hnot, hkept.ranges.live p hnot hlive⟩
  · intro hs p hp n _
    obtain ⟨hnot, hP⟩ := hgone r hr p hp
    exact ⟨fun f hf => hkept.ranges.use hs f p n hnot hf, fun hmark => hmarks.marked hmark (hP _)⟩

/-- Requests that hand out nothing leave the ranges where they are. -/
theorem RangesOk.grows (hgrows : Grows g g') (hshapes : SameShapes s last)
    (hmarks : MarksKept (fun _ _ => False) s last) : RangesOk strict g' last ranges := by
  refine ⟨fun r hr => (h.each r hr).keep ?_ ?_ ?_, h.apart⟩
  · exact fun _ n _ v hv => hgrows.owner n _ hv
  · intro p _ hin hlive
    exact ⟨by rwa [hshapes.threadAllList], by rwa [hgrows.live]⟩
  · exact fun _ p _ n _ => ⟨fun f hf => hgrows.use f _ hf, fun hmark => hmarks.marked hmark id⟩

/-- A range that overlaps none of the others is handed out. -/
theorem RangesOk.cons (hr : RangeOk strict g s r) (hapart : ∀ r' ∈ ranges, r.Apart strict r') :
    RangesOk strict g s (r :: ranges) := by
  refine ⟨fun r' hr' => ?_, List.pairwise_cons.2 ⟨hapart, h.apart⟩⟩
  rcases List.mem_cons.1 hr' with rfl | hin
  · exact hr
  · exact h.each r' hin

/-- When a range is taken back, the others are apart from it. -/
theorem RangesOk.apart_of_mem_erase (hr : r ∈ ranges) (hr' : r' ∈ ranges.erase r) :
    r'.Apart strict r := by
  have hperm := List.perm_cons_erase hr
  have hpairwise := (hperm.pairwise_iff fun h => Range.Apart.symm h).1 h.apart
  exact ((List.pairwise_cons.1 hpairwise).1 r' hr').symm

theorem RangesOk.erase_pairwise (r : Range) : (ranges.erase r).Pairwise (Range.Apart strict) :=
  h.apart.sublist List.erase_sublist

end

/-! ## What a request preserves -/

/-- The invariant of the runs. -/
structure SysOk (strict : Prop) (g : Ghost) (a : Sys) : Prop where
  frames : Frames strict g a.vm
  tasks : TaskInv g a.vm
  ranges : RangesOk strict g a.vm a.ranges

/-- The request of a process has a frame for every page table that it needs. -/
def Op.HasRoom (s : Vm) (p : Nat) (op : Op) : Prop :=
  ∀ task dir, s.tasks p = some task → task.pgdir ≠ 0 →
    walk s.mem kernelDir task.pgdir = some dir →
    match op with
    | .mallocPage .user pages => ∀ b, bitmapScan task.userprogVaddr.vaddrMap pages = some b →
        Room s dir (List.range' (0x8048 + b) pages)
    | .getAPage .user vaddr => Room s dir [vaddr / 4096]
    | .getAPageWithoutOpvaddrbitmap .user vaddr => Room s dir [vaddr / 4096]
    | .fork => ForkRoom s task
    | _ => True

section

theorem SysOk.created (h : SysOk strict g ⟨s, ranges⟩) (hnew : p ∉ s.threadAllList)
    (hkept : Kept strict (fun _ => False) g s g' last)
    (hmarks : MarksKept (fun q _ => q = p) s last) : SysOk strict g' ⟨last, ranges⟩ := by
  refine ⟨hkept.frames, hkept.tasks, h.ranges.kept hkept hmarks fun r hr q hq => ⟨id, ?_⟩⟩
  rintro - rfl
  exact hnew ((h.ranges.each r hr).proc hq).1

/-- Pages were mapped, and nobody was given them. -/
theorem SysOk.grown (h : SysOk strict g ⟨s, ranges⟩) (hgrows : Grows g g')
    (hf : Frames strict g' last) (hshapes : SameShapes s last)
    (hmarks : MarksKept (fun _ _ => False) s last) : SysOk strict g' ⟨last, ranges⟩ :=
  ⟨hf, h.tasks.of_shapes hgrows.keeps_tasks hshapes, h.ranges.grows hgrows hshapes hmarks⟩

theorem SysOk.malloc_page_kernel (h : SysOk strict g ⟨s, ranges⟩) (p pages : Nat) :
    wp any (serve p ranges (.mallocPage .kernel pages)) s fun r last =>
      ∃ g', SysOk strict g' ⟨last, r⟩ := by
  refine wp_seq (h.frames.malloc_page_kernel pages) ?_
  intro r last hspec
  obtain ⟨hsame, -, -, g1, hgrows, h1, hserved⟩ := hspec
  have hmarks : MarksKept (fun _ _ => False) s last := .of_tasks hsame.tasks
  cases r with
  | none => exact ⟨g1, h.grown hgrows h1 hsame.same_shapes hmarks⟩
  | some v =>
    obtain ⟨-, -, hpages⟩ := hserved v rfl
    -- the pages are reserved and mapped, so whoever asked for them can have them
    have h2 := h1.claim (.range v) fun i hi => (hpages i hi).2
    have hgrows2 := hgrows.set_owner (o := some (.range v)) fun i hi => (hpages i hi).1
    have hok := h.grown hgrows2 h2 hsame.same_shapes hmarks
    refine ⟨_, hok.frames, hok.tasks, hok.ranges.cons ?_ ?_⟩
    · exact fun n hn => ⟨v, Ghost.set_owner_in g1 _ hn.1 hn.2⟩
    · intro r' hr' hproc _ n hn hn'
      obtain ⟨i, hi, rfl⟩ := Range.has_iff.1 hn
      have hold := h.ranges.each r' hr'
      simp only [RangeOk, ← hproc] at hold
      obtain ⟨w, hw⟩ := hold _ hn'
      simp [(hpages i hi).1] at hw

/-- The owners of the pages of a range are set back, and the other owners stay. -/
theorem SysOk.mfree_page_kernel (h : SysOk strict g ⟨s, ranges⟩) (p : Nat) (hr : r ∈ ranges)
    (hproc : r.proc = none) :
    wp any (serve p ranges (.mfreePage r)) s fun rest last =>
      ∃ g', SysOk strict g' ⟨last, rest⟩ := by
  have hpages : ∀ n, r.Has n → ∃ v, g.owner n = some (.range v) := by
    have hok := h.ranges.each r hr
    simpa only [RangeOk, hproc] using hok
  have hfree : ∀ i < r.cnt, Freeable g (r.start + i) := by
    intro i hi
    obtain ⟨v, hv⟩ := hpages _ (Range.has_iff.2 ⟨i, hi, rfl⟩)
    exact freeable_of_owner hv (by simp) (by simp)
  rw [serve, wp_bind, if_pos hproc]
  refine wp_mono (h.frames.mfree_page_kernel _ _ hfree) ?_
  intro _ last hspec
  obtain ⟨hsame, -, -, g', hkeeps, h1, howner⟩ := hspec
  have hother : ∀ n, ¬r.Has n → g'.owner n = g.owner n := fun n hn => by
    rw [howner, Ghost.set_owner_out _ _ hn]
  refine ⟨g', h1, h.tasks.of_shapes ⟨hkeeps.dir, hkeeps.dirPage, hkeeps.live, ?_⟩ hsame.same_shapes,
    ⟨?_, h.ranges.erase_pairwise r⟩⟩
  · intro n q ho
    refine hother n fun hn => ?_
    obtain ⟨v, hv⟩ := hpages n hn
    simp [hv] at ho
  · intro r' hr'
    have hapart := h.ranges.apart_of_mem_erase hr hr'
    refine (h.ranges.each r' (List.mem_of_mem_erase hr')).keep ?_ ?_ ?_
    · intro hproc' n hn v hv
      rw [hother n (hapart (hproc'.trans hproc.symm) (.inl hproc') n hn), hv]
    · intro q _ hin hlive
      exact ⟨by rwa [hsame.threadAllList], by rwa [hkeeps.live]⟩
    · intro _ q _ n _
      exact ⟨fun f => hkeeps.use f q n, fun ⟨t, ht, hbit⟩ => ⟨t, by rwa [hsame.tasks], hbit⟩⟩

/-- The directory of the running process, as the conditions of `Op.HasRoom` name it. -/
theorem OnCpu.walk_pgdir (hcpu : OnCpu g s task) (hf : Frames strict g s) (ht : TaskInv g s)
    (hpgdir : task.pgdir ≠ 0) : walk s.mem kernelDir task.pgdir = some s.cr3 := by
  obtain ⟨-, hholds, -⟩ := hcpu.holds ht hpgdir
  obtain ⟨-, hpage, -⟩ := hholds.space hpgdir
  obtain ⟨-, -, hmap, -⟩ := hf.dirs s.cur s.cr3 (hcpu.process hpgdir)
  have hkernel : Frames strict g { s with cr3 := kernelDir } := hf.set_cr3 (.inl rfl)
  exact hkernel.walk_mapped (by omega) hmap

variable (h : SysOk strict g ⟨s, ranges⟩) (hcpu : OnCpu g s task)

include h hcpu

theorem SysOk.malloc_page_user (hpgdir : task.pgdir ≠ 0) (pages : Nat)
    (hroom : strict → Op.HasRoom s s.cur (.mallocPage .user pages)) :
    wp any (serve s.cur ranges (.mallocPage .user pages)) s fun r last =>
      ∃ g', SysOk strict g' ⟨last, r⟩ := by
  obtain ⟨hin, hholds, hlive⟩ := hcpu.holds h.tasks hpgdir
  obtain ⟨-, -, -, huser, -⟩ := hholds.space hpgdir
  have hwalk := hcpu.walk_pgdir h.frames h.tasks hpgdir
  by_cases hzero : pages = 0
  · simp [serve, mallocPage, hzero]
  refine wp_seq (h.frames.malloc_page_user hlive (hcpu.process hpgdir) hcpu.block huser pages
    fun hs => hroom hs task s.cr3 hcpu.block hpgdir hwalk) ?_
  intro r last hspec
  obtain ⟨hshapes, hmarks, -, g1, hext, h1, hserved⟩ := hspec
  have hok := h.grown hext.grows h1 hshapes hmarks
  cases r with
  | none => exact ⟨g1, hok⟩
  | some v =>
    obtain ⟨-, hlo, hbits, hpages⟩ := hserved v rfl
    obtain ⟨task', htask', -⟩ := hmarks s.cur task hcpu.block
    refine ⟨g1, hok.frames, hok.tasks, hok.ranges.cons ?_ ?_⟩
    · refine ⟨by rwa [hshapes.threadAllList], by rwa [hext.live], hlo, ?_, ?_⟩
      · show v / 4096 + pages ≤ 0xc0000
        have := (hpages (pages - 1) (by omega)).1
        omega
      · intro _ n hn
        obtain ⟨i, hi, rfl⟩ := Range.has_iff.1 hn
        exact ⟨(hpages i hi).2.1, task', htask', hbits task' htask' i hi⟩
    · intro r' hr' hproc hkind n hn hn'
      obtain ⟨i, hi, rfl⟩ := Range.has_iff.1 hn
      have hs : strict := by simpa [PoolType.proc] using hkind
      have hold := h.ranges.each r' hr'
      simp only [RangeOk, ← hproc] at hold
      obtain ⟨⟨f, hf⟩, -⟩ := hold.2.2.2.2 hs _ hn'
      exact (hpages i hi).2.2 hs f hf

theorem SysOk.mfree_page_user (hr : r ∈ ranges) (hproc : r.proc = some s.cur) :
    wp any (serve s.cur ranges (.mfreePage r)) s fun rest last =>
      ∃ g', SysOk strict g' ⟨last, rest⟩ := by
  have hok := h.ranges.each r hr
  simp only [RangeOk, hproc] at hok
  obtain ⟨hin, hlive, hlo, hhi, hrecorded⟩ := hok
  obtain ⟨task', htask', hholds⟩ := h.tasks.control s.cur hin
  obtain rfl : task = task' := by simpa [hcpu.block] using htask'
  have hpgdir : task.pgdir ≠ 0 := fun hzero => (hholds.thread hzero).2.1 hlive
  obtain ⟨-, -, -, huser, -⟩ := hholds.space hpgdir
  rw [serve, wp_bind, if_neg (by simp [hproc])]
  refine wp_mono (h.frames.mfree_page_user hlive (hcpu.process hpgdir) hlo hhi ?_ ?_) ?_
  · intro task0 htask0
    obtain rfl : task = task0 := by simpa [hcpu.block] using htask0
    exact huser.1
  · exact fun hs i hi => (hrecorded hs _ (Range.has_iff.2 ⟨i, hi, rfl⟩)).1
  intro _ last hspec
  obtain ⟨hshapes, hmarks, -, g', h1, hloses⟩ := hspec
  refine ⟨g', h1, h.tasks.of_shapes hloses.keeps_tasks hshapes, ⟨?_, h.ranges.erase_pairwise r⟩⟩
  intro r' hr'
  have hapart := h.ranges.apart_of_mem_erase hr hr'
  have hok' := h.ranges.each r' (List.mem_of_mem_erase hr')
  refine hok'.keep ?_ ?_ ?_
  · intro _ n _ v hv
    rw [hloses.owner, hv]
  · intro q _ hin' hlive'
    exact ⟨by rwa [hshapes.threadAllList], by rwa [hloses.live]⟩
  · intro hs q hq n hn
    -- no page of another range of the process is freed
    have hnot : q = s.cur → ¬r.Has n := by
      rintro rfl
      exact hapart (hq.trans hproc.symm) (.inr hs) n hn
    constructor
    · intro f hf
      refine hloses.use hs f _ hf ?_
      intro ⟨i, hi, heq⟩
      obtain ⟨rfl, rfl⟩ : q = s.cur ∧ n = r.start + i := by simpa using heq
      exact hnot rfl (Range.has_iff.2 ⟨i, hi, rfl⟩)
    · intro hmark
      refine hmarks.marked hmark ?_
      rintro ⟨rfl, hge, hlt⟩
      simp only [RangeOk, hq] at hok'
      have := hn.1
      exact hnot rfl ⟨by omega, by omega⟩

theorem SysOk.get_a_page (t : PoolType) (hv : v < 2 ^ 32)
    (hroom : strict → Op.HasRoom s s.cur (.getAPage t v)) :
    wp any (serve s.cur ranges (.getAPage t v)) s fun r last =>
      ∃ g', SysOk strict g' ⟨last, r⟩ := by
  rw [serve, wp_bind]
  cases t with
  | kernel =>
    refine wp_mono (h.frames.get_a_page_kernel hv) ?_
    intro _ last hspec
    obtain ⟨hsame, -, g', hext, h1⟩ := hspec
    exact ⟨g', h.grown hext.grows h1 hsame.same_shapes (.of_tasks hsame.tasks)⟩
  | user =>
    by_cases hpgdir : task.pgdir = 0
    · -- a kernel thread fails the assertion
      simp [getAPage, hcpu.block, hpgdir]
    obtain ⟨-, hholds, hlive⟩ := hcpu.holds h.tasks hpgdir
    obtain ⟨-, -, -, huser, -⟩ := hholds.space hpgdir
    have hwalk := hcpu.walk_pgdir h.frames h.tasks hpgdir
    refine wp_mono (h.frames.get_a_page_user hlive (hcpu.process hpgdir) hcpu.block huser hv
      fun hs => hroom hs task s.cr3 hcpu.block hpgdir hwalk) ?_
    intro _ last hspec
    obtain ⟨hshapes, hmarks, -, g', hext, h1⟩ := hspec
    exact ⟨g', h.grown hext.grows h1 hshapes hmarks⟩

theorem SysOk.map_page (t : PoolType)
    (hvalid : Op.Valid ⟨s, ranges⟩ s.cur (.getAPageWithoutOpvaddrbitmap t v))
    (hroom : strict → Op.HasRoom s s.cur (.getAPageWithoutOpvaddrbitmap t v)) :
    wp any (serve s.cur ranges (.getAPageWithoutOpvaddrbitmap t v)) s fun r last =>
      ∃ g', SysOk strict g' ⟨last, r⟩ := by
  rw [serve, wp_bind]
  cases t with
  | kernel =>
    obtain ⟨hlo, hhi⟩ := hvalid
    refine wp_mono (h.frames.map_kernel_page rfl (by omega) (by omega)) ?_
    intro _ last hspec
    obtain ⟨hside, g', hext, h1⟩ := hspec
    have hsame := hside.quiet.same_tasks
    exact ⟨g', h.grown hext.grows h1 hsame.same_shapes (.of_tasks hsame.tasks)⟩
  | user =>
    obtain ⟨⟨task', htask', hpgdir⟩, hhi⟩ := hvalid
    obtain rfl : task = task' := by simpa [hcpu.block] using htask'
    obtain ⟨-, -, hlive⟩ := hcpu.holds h.tasks hpgdir
    have hwalk := hcpu.walk_pgdir h.frames h.tasks hpgdir
    refine wp_mono (h.frames.map_user_page [] hlive (hcpu.process hpgdir) rfl (by omega)
      fun hs => hroom hs task s.cr3 hcpu.block hpgdir hwalk) ?_
    intro _ last hspec
    obtain ⟨hquiet, -, g', hext, h1, -⟩ := hspec
    have hsame := hquiet.same_tasks
    exact ⟨g', h.grown hext.grows h1 hsame.same_shapes (.of_tasks hsame.tasks)⟩

/-- The child has the ranges of its parent, in its own address space. -/
theorem SysOk.fork_made {child : Nat} (hmade : ForkMade strict g s task child g' last) :
    SysOk strict g' ⟨last, inherited ranges s.cur child ++ ranges⟩ := by
  obtain ⟨-, hholds, -⟩ := hcpu.holds h.tasks hmade.space
  obtain ⟨-, -, -, huser, -⟩ := hholds.space hmade.space
  have hold := (h.created hmade.new hmade.kept hmade.marks).ranges
  have hin : ∀ r ∈ inherited ranges s.cur child, ∃ r0 ∈ ranges, r0.proc = some s.cur ∧
      r = { r0 with proc := some child } := by
    intro r hr
    obtain ⟨r0, hr0, rfl⟩ := List.mem_map.1 hr
    obtain ⟨hmem, hproc⟩ := List.mem_filter.1 hr0
    exact ⟨r0, hmem, by simpa using hproc, rfl⟩
  refine ⟨hmade.kept.frames, hmade.kept.tasks, ?_, ?_⟩
  · intro r hr
    rcases List.mem_append.1 hr with hnew | hkept
    · obtain ⟨r0, hr0, hproc, rfl⟩ := hin r hnew
      have hok := h.ranges.each r0 hr0
      simp only [RangeOk, hproc] at hok
      obtain ⟨-, -, hlo, hhi, hrecorded⟩ := hok
      refine ⟨hmade.listed, hmade.live, hlo, hhi, fun hs n hn => ?_⟩
      have hn0 : r0.Has n := hn
      obtain ⟨-, hmark⟩ := hrecorded hs n hn0
      refine ⟨hmade.pages hs n ?_, ?_⟩
      · obtain ⟨task', htask', hbit⟩ := hmark
        obtain rfl : task = task' := by simpa [hcpu.block] using htask'
        have := hn0.1
        have := hn0.2
        exact (mem_fork_pages huser).2 ⟨by omega, by omega, hbit⟩
      · obtain ⟨task', htask', hsame⟩ := hmade.user
        obtain ⟨task0, htask0, hbit⟩ := hmark
        obtain rfl : task = task0 := by simpa [hcpu.block] using htask0
        exact ⟨task', htask', by rwa [hsame]⟩
    · exact hold.each r hkept
  · refine List.pairwise_append.2 ⟨?_, hold.apart, ?_⟩
    · -- the ranges of the child overlap as little as those of the parent
      refine List.pairwise_map.2 (List.Pairwise.imp_of_mem ?_ (h.ranges.apart.filter _))
      intro r r' hr hr' hapart _ hkind n hn hn'
      have hproc : r.proc = some s.cur := by simpa using (List.mem_filter.1 hr).2
      have hproc' : r'.proc = some s.cur := by simpa using (List.mem_filter.1 hr').2
      refine hapart (hproc.trans hproc'.symm) (.inr ?_) n hn hn'
      simpa using hkind
    · intro r hr r' hr' heq
      obtain ⟨r0, -, -, rfl⟩ := hin r hr
      exact absurd ((h.ranges.each r' hr').proc heq.symm).1 hmade.new

theorem SysOk.fork (hroom : strict → Op.HasRoom s s.cur .fork) :
    wp any (serve s.cur ranges .fork) s fun r last => ∃ g', SysOk strict g' ⟨last, r⟩ := by
  rw [serve, wp_bind]
  have hfork := sys_fork_spec h.frames h.tasks hcpu fun hs hpgdir =>
    hroom hs task s.cr3 hcpu.block hpgdir (hcpu.walk_pgdir h.frames h.tasks hpgdir)
  refine wp_mono hfork ?_
  intro r last hspec
  obtain ⟨hnone, hsome⟩ := hspec
  cases r with
  | none =>
    obtain ⟨g', hgrown⟩ := hnone rfl
    exact ⟨g', h.grown hgrown.grows hgrown.frames hgrown.same.same_shapes
      (.of_tasks hgrown.same.tasks)⟩
  | some made =>
    obtain ⟨child, pid⟩ := made
    obtain ⟨g', hmade⟩ := hsome child pid rfl
    exact ⟨g', h.fork_made hcpu hmade⟩

theorem SysOk.exit (hpgdir : task.pgdir ≠ 0) :
    wp any (serve s.cur ranges .exit) s fun r last => ∃ g', SysOk strict g' ⟨last, r⟩ := by
  refine wp_seq (sys_exit_spec h.frames h.tasks hcpu hpgdir) ?_
  intro _ last hspec
  obtain ⟨g', hkept, hmarks⟩ := hspec
  have hleft : RangesOk strict g s (ranges.filter fun r => r.proc ≠ some s.cur) :=
    ⟨fun r hr => h.ranges.each r (List.mem_filter.1 hr).1, h.ranges.apart.filter _⟩
  refine ⟨g', hkept.frames, hkept.tasks, hleft.kept hkept hmarks ?_⟩
  intro r hr p hp
  refine ⟨?_, fun _ => id⟩
  rintro rfl
  simp [hp] at hr

theorem SysOk.wait (p : Nat) :
    wp any (serve p ranges .wait) s fun r last => ∃ g', SysOk strict g' ⟨last, r⟩ := by
  refine wp_seq (sys_wait_spec h.frames h.tasks hcpu) ?_
  intro _ last hspec
  obtain ⟨g', gone, hkept, hgone, hmarks⟩ := hspec
  refine ⟨g', hkept.frames, hkept.tasks, h.ranges.kept hkept hmarks
    fun r hr q hq => ⟨?_, fun _ => id⟩⟩
  exact fun hq' => hgone q hq' ((h.ranges.each r hr).proc hq).2

theorem SysOk.serve {op : Op} (hvalid : op.Valid ⟨s, ranges⟩ s.cur)
    (hroom : strict → op.HasRoom s s.cur) :
    wp any (serve s.cur ranges op) s fun r last => ∃ g', SysOk strict g' ⟨last, r⟩ := by
  cases op with
  | processExecute =>
    refine wp_seq (process_execute_spec h.frames h.tasks) ?_
    intro _ last ⟨g', p, hnew, hkept, hmarks⟩
    exact ⟨g', h.created hnew hkept hmarks⟩
  | threadStart =>
    refine wp_seq (thread_start_spec h.frames h.tasks) ?_
    intro _ last ⟨g', p, hnew, hkept, hmarks⟩
    exact ⟨g', h.created hnew hkept hmarks⟩
  | makeMainThread =>
    refine wp_seq (make_main_thread_spec h.frames h.tasks) ?_
    intro _ last ⟨g', p, hnew, hkept, hmarks⟩
    exact ⟨g', h.created hnew hkept hmarks⟩
  | mallocPage t pages =>
    cases t with
    | kernel => exact h.malloc_page_kernel s.cur pages
    | user =>
      obtain ⟨task', htask', hpgdir⟩ := hvalid
      obtain rfl : task = task' := by simpa [hcpu.block] using htask'
      exact h.malloc_page_user hcpu hpgdir pages hroom
  | mfreePage r =>
    obtain ⟨hr, hkernel | huser⟩ := hvalid
    · exact h.mfree_page_kernel s.cur hr hkernel
    · exact h.mfree_page_user hcpu hr huser
  | getAPage t v => exact h.get_a_page hcpu t hvalid hroom
  | getAPageWithoutOpvaddrbitmap t v => exact h.map_page hcpu t hvalid hroom
  | fork => exact h.fork hcpu hroom
  | exit =>
    obtain ⟨task', htask', hpgdir⟩ := hvalid
    obtain rfl : task = task' := by simpa [hcpu.block] using htask'
    exact h.exit hcpu hpgdir
  | wait => exact h.wait hcpu s.cur

end

/-! ## Runs -/

/-- A step keeps the invariant. For the user halves the request needs room for its page tables. -/
theorem SysOk.step (h : SysOk strict g a)
    (hallowed : ∀ s p op, allowed s p op → strict → op.HasRoom s p) (hstep : a.Step allowed b) :
    ∃ g', SysOk strict g' b := by
  obtain ⟨p, op, ⟨hknown, hrun⟩, hvalid, hcond, hdone⟩ := hstep
  have hwp : wp any (perform p a.ranges op) a.vm fun r last =>
      ∃ g', SysOk strict g' ⟨last, r⟩ := by
    refine wp_seq (h.tasks.switch_to h.frames hknown hrun) ?_
    intro _ s hspec
    obtain ⟨task, hcpu, hs, hframes, htasks⟩ := hspec
    -- only the running thread and its directory changed
    have hcur : s.cur = p := by rw [hs]
    have hranges : RangesOk strict g s a.ranges := by
      rw [hs]
      exact ⟨h.ranges.each, h.ranges.apart⟩
    have hvalid' : op.Valid ⟨s, a.ranges⟩ s.cur := by
      rw [hs]
      cases op <;> exact hvalid
    have hroom : strict → op.HasRoom s s.cur := by
      rw [hs]
      exact hallowed a.vm p op hcond
    have hserve := SysOk.serve ⟨hframes, htasks, hranges⟩ hcpu hvalid' hroom
    rwa [hcur] at hserve
  exact wp_any_iff.1 hwp _ _ hdone

/-- The invariant holds in every state of a run. -/
theorem SysOk.run (h : SysOk strict g a)
    (hallowed : ∀ s p op, allowed s p op → strict → op.HasRoom s p) (hrun : Sys.Run allowed a b) :
    ∃ g', SysOk strict g' b := by
  induction hrun with
  | refl => exact ⟨g, h⟩
  | tail _ hstep ih =>
    obtain ⟨g', h'⟩ := ih
    exact h'.step hallowed hstep

/-! ## Following a run -/

/-- Follow the requests of a list, each of which must pass `ok`, and test the last state. -/
def Sys.follow (ok : Sys → Nat → Op → Bool) (test : Sys → Bool) : Sys → List (Nat × Op) → Bool
  | a, [] => test a
  | a, (p, op) :: calls =>
    (p ∈ a.vm.threadAllList ∨ p = a.vm.mainThread) &&
      (a.vm.tasks p).all (fun task => task.status ≠ .hanging) && ok a p op &&
      match perform p a.ranges op a.vm with
      | .done ranges vm => Sys.follow ok test ⟨vm, ranges⟩ calls
      | .stop _ => false

theorem exists_run_of_follow {ok : Sys → Nat → Op → Bool} {test : Sys → Bool} :
    ∀ {calls : List (Nat × Op)} {a : Sys},
    a.follow ok test calls = true →
    (∀ a p op, (p, op) ∈ calls → ok a p op = true → op.Valid a p ∧ allowed a.vm p op) →
    ∃ b, Sys.Run allowed a b ∧ test b = true := by
  intro calls
  induction calls with
  | nil => exact fun {a} htest _ => ⟨a, .refl, htest⟩
  | cons call calls ih =>
    intro a hfollow hok
    obtain ⟨p, op⟩ := call
    simp only [Sys.follow, Bool.and_eq_true, decide_eq_true_eq, Option.all_eq_true] at hfollow
    obtain ⟨⟨⟨hknown, hstatus⟩, hpass⟩, hrest⟩ := hfollow
    obtain ⟨hvalid, hallowed⟩ := hok a p op List.mem_cons_self hpass
    cases hperform : perform p a.ranges op a.vm with
    | stop reason => simp [hperform] at hrest
    | done ranges vm =>
      simp only [hperform] at hrest
      obtain ⟨b, hrun, htest⟩ :=
        ih hrest fun a q op' hin => hok a q op' (List.mem_cons_of_mem _ hin)
      have hstep : a.Step allowed ⟨vm, ranges⟩ :=
        ⟨p, op, ⟨hknown, fun task htask => hstatus task htask⟩, hvalid, hallowed, hperform⟩
      exact ⟨b, .head hstep hrun, htest⟩

end LosKernel.Mm
