import LosKernel.Lib.Logged
import LosKernel.Mm.Tables

/-!
# The self-map and the translation lookaside buffer

`pde_ptr` and `pte_ptr` rest on the last entry of a page directory, which refers to the directory
itself: the addresses they compute are those of the entries of a page, and a store through
`pte_ptr` replaces the entry of one page. For a page of the window of the self-map this is a
directory entry, so the store changes the pages of a whole page table.

The second part adds what the processor caches. In `page_table_pte_remove` the operand of `invlpg`
is the variable `vaddr` on the stack and not the page that it is the address of.
-/

namespace LosKernel.Mm

open Prog hiding update
open Function (update)

variable {mem : Nat → Nat → Nat} {dir v w value slot vaddr pgCnt : Nat} {pf t : PoolType}

/-! ## The self-map -/

section

variable {s last : Vm}

/-- The physical address of `vaddr`, as the processor computes it. -/
def translate (mem : Nat → Nat → Nat) (dir vaddr : Nat) : Option Nat :=
  (walk mem dir vaddr).map fun frame => frame * 4096 + vaddr % 4096

/-- No two entries of a page directory refer to the same frame. -/
def TablesApart (mem : Nat → Nat → Nat) (dir : Nat) : Prop :=
  ∀ i j, present (mem dir i) → present (mem dir j) →
    frameOf (mem dir i) = frameOf (mem dir j) → i = j

/-- `pde_ptr` and `pte_ptr` are the addresses of the entries of the page of `v`, and `addr_v2p`
translates `v`. -/
structure ReadsEntries (s : Vm) (v : Nat) : Prop where
  pde : translate s.mem s.cr3 (pdePtr v) = some (s.cr3 * 4096 + 4 * pdeIdx v)
  pte : present (s.mem s.cr3 (pdeIdx v)) →
    translate s.mem s.cr3 (ptePtr v) =
      some (frameOf (s.mem s.cr3 (pdeIdx v)) * 4096 + 4 * pteIdx v)
  v2p : ∀ addr, translate s.mem s.cr3 v = some addr → addrV2p v s = .done addr s

/-- A store through `pte_ptr` replaces the translation of the page of `v`, and that of no other page
outside the window of the self-map. -/
def StoresEntry (s : Vm) (v : Nat) : Prop :=
  ∀ value last, store (ptePtr v) value s = .done () last →
    walk last.mem last.cr3 v = (if present value then some (frameOf value) else none) ∧
      ∀ w < 2 ^ 32, pdeIdx w ≠ 1023 → w / 4096 ≠ v / 4096 →
        walk last.mem last.cr3 w = walk s.mem s.cr3 w

theorem reads_entries (hself : SelfMapped s.mem s.cr3) (v : Nat) : ReadsEntries s v := by
  have hpde := word_pde_ptr v
  have hpte := word_pte_ptr v
  refine ⟨?_, fun hp => ?_, fun addr htrans => ?_⟩
  · rw [translate, walk_pde_ptr hself, Option.map_some]
    have hmod : pdePtr v % 4 = 0 := by unfold pdePtr; omega
    congr 1
    omega
  · rw [translate, walk_pte_ptr hself, if_pos hp, Option.map_some]
    have hmod : ptePtr v % 4 = 0 := by unfold ptePtr; omega
    congr 1
    omega
  · obtain ⟨frame, hwalk, haddr⟩ := Option.map_eq_some_iff.1 htrans
    obtain ⟨hp, hframe⟩ : present (s.mem s.cr3 (pdeIdx v)) ∧
        frameOf (s.mem (frameOf (s.mem s.cr3 (pdeIdx v))) (pteIdx v)) = frame := by
      simp only [walk] at hwalk
      split at hwalk <;> simp_all
    have hload : load (ptePtr v) s =
        .done (s.mem (frameOf (s.mem s.cr3 (pdeIdx v))) (pteIdx v)) s := by
      simp [load, frameAt, nonNull, bind_run, walk_pte_ptr hself, hp, hpte]
    simp [addrV2p, bind_run, hload, ← haddr, ← hframe, frameOf]

/-- A store through `pte_ptr` that returns has replaced the entry of the page. -/
theorem store_pte_eq (hself : SelfMapped s.mem s.cr3)
    (hdone : store (ptePtr v) value s = .done () last) :
    present (s.mem s.cr3 (pdeIdx v)) ∧
      last = { s with
        mem := setWord s.mem (frameOf (s.mem s.cr3 (pdeIdx v))) (pteIdx v) value } := by
  cases hp : present (s.mem s.cr3 (pdeIdx v)) with
  | false => simp [store, frameAt, nonNull, bind_run, walk_pte_ptr hself, hp] at hdone
  | true =>
    refine ⟨rfl, ?_⟩
    simp only [store, frameAt, nonNull, storeWord, bind_run, walk_pte_ptr hself, hp, state_run,
      if_true, pure_run, update_run, word_pte_ptr, Outcome.done.injEq, true_and] at hdone
    exact hdone.symm

/-- The page table of a page outside the window is not the directory. -/
theorem table_ne_dir (hself : SelfMapped mem dir) (hapart : TablesApart mem dir)
    (hp : present (mem dir (pdeIdx w))) (hout : pdeIdx w ≠ 1023) :
    frameOf (mem dir (pdeIdx w)) ≠ dir :=
  fun heq => hout (hapart _ _ hp hself.1 (heq.trans hself.2.symm))

/-- A word that is neither in the directory, for its entry, nor in the page table of a page does not
matter for the page. -/
theorem walk_set_word {frame idx : Nat} (hdir : frame ≠ dir ∨ idx ≠ pdeIdx w)
    (htable : present (mem dir (pdeIdx w)) →
      frame ≠ frameOf (mem dir (pdeIdx w)) ∨ idx ≠ pteIdx w) :
    walk (setWord mem frame idx value) dir w = walk mem dir w := by
  have hpde : setWord mem frame idx value dir (pdeIdx w) = mem dir (pdeIdx w) := by
    rw [set_word_apply, if_neg]
    rintro ⟨rfl, rfl⟩
    simp at hdir
  simp only [walk, hpde]
  cases hp : present (mem dir (pdeIdx w)) with
  | false => rfl
  | true =>
    have hpte : setWord mem frame idx value (frameOf (mem dir (pdeIdx w))) (pteIdx w) =
        mem (frameOf (mem dir (pdeIdx w))) (pteIdx w) := by
      rw [set_word_apply, if_neg]
      rintro ⟨rfl, rfl⟩
      simpa using htable hp
    rw [hpte]

/-- A directory that refers to itself, and to each other frame at most once, gives access to its
own entries and to those of its page tables. A store through `pte_ptr` to the entry of a page
outside the window of the self-map changes the translation of that page alone; for a page of the
window it changes pages of one page table. -/
theorem self_map_correct (hself : SelfMapped s.mem s.cr3) (v : Nat) (hv : v < 2 ^ 32) :
    ReadsEntries s v ∧ (TablesApart s.mem s.cr3 → (pdeIdx v ≠ 1023 → StoresEntry s v) ∧
      (pdeIdx v = 1023 → ∀ value last, store (ptePtr v) value s = .done () last →
        ∀ w, pdeIdx w ≠ 1023 → pdeIdx w ≠ pteIdx v →
          walk last.mem last.cr3 w = walk s.mem s.cr3 w)) := by
  refine ⟨reads_entries hself v, fun hapart => ⟨fun hout value last hdone => ?_,
    fun hwindow value last hdone w hw hne => ?_⟩⟩
  · obtain ⟨hp, rfl⟩ := store_pte_eq hself hdone
    have htable := table_ne_dir hself hapart hp hout
    refine ⟨?_, fun w hw hwout hpage => walk_set_word (.inl htable) fun hpw => ?_⟩
    · simp only [walk, set_word_frame_ne _ _ _ htable.symm, hp, if_true, set_word_same]
    · by_cases hsame : pdeIdx v = pdeIdx w
      · right
        unfold pdeIdx pteIdx at *
        omega
      · exact .inl fun heq => hsame (hapart _ _ hp hpw heq)
  · obtain ⟨hp, rfl⟩ := store_pte_eq hself hdone
    rw [hwindow] at hp ⊢
    rw [hself.2]
    exact walk_set_word (.inr hne.symm) fun hpw =>
      .inl (table_ne_dir hself hapart hpw hw).symm

/-- A machine whose directory, in frame 1, has one page table, in frame 2, with the first page of
the heap of the kernel. -/
def onePage : Vm :=
  { Vm.boot (fun _ _ => 0) (fun _ => 0) 0x210000 with
    mem := fun frame idx =>
      if frame = 1 ∧ idx = 0x3ff then entryFor 0x1000
      else if frame = 1 ∧ idx = 0x300 then entryFor 0x2000
      else if frame = 2 ∧ idx = 0x100 then entryFor 0x200000
      else 0
    cr3 := 1 }

theorem one_page_self_mapped : SelfMapped onePage.mem onePage.cr3 := by
  constructor <;> rfl

theorem one_page_apart : TablesApart onePage.mem onePage.cr3 := by
  have hentries : ∀ i, present (onePage.mem onePage.cr3 i) → i = 0x300 ∨ i = 0x3ff := by
    intro i hp
    by_contra hi
    rw [not_or] at hi
    simp [onePage, hi, present] at hp
  intro i j hi hj heq
  rcases hentries i hi with rfl | rfl <;> rcases hentries j hj with rfl | rfl <;>
    first | rfl | (revert heq; decide)

/-- The entry of the page can be read and replaced. -/
theorem self_map_heap_page : ReadsEntries onePage 0xc0100000 ∧ StoresEntry onePage 0xc0100000 := by
  obtain ⟨hreads, hstores⟩ := self_map_correct one_page_self_mapped 0xc0100000 (by decide)
  exact ⟨hreads, (hstores one_page_apart).1 (by decide)⟩

/-- A store through `pte_ptr` for the page of the window that shows the page table takes the page
away. -/
theorem window_store_unmaps : SelfMapped onePage.mem onePage.cr3 ∧
    TablesApart onePage.mem onePage.cr3 ∧ ¬StoresEntry onePage 0xfff00000 := by
  refine ⟨one_page_self_mapped, one_page_apart, fun h => ?_⟩
  have hkept := (h 0 _ rfl).2 0xc0100000 (by decide) (by decide) (by decide)
  revert hkept
  decide +kernel

end

/-! ## The translation lookaside buffer -/

/-- The pages whose translation is cached, with their frames. -/
abbrev Tlb := Nat → Option Nat

namespace Tlb

variable {s last : Vm × Tlb}

/-- `invlpg` with an operand at the address `addr`. -/
def invlpg (addr : Nat) : Prog Stop (Vm × Tlb) Unit :=
  note fun tlb => update tlb (addr / 4096) none

/-- `page_table_pte_remove`. Its variable `vaddr`, the operand of `invlpg`, is at `slot`. -/
def pageTablePteRemove (slot vaddr : Nat) : Prog Stop (Vm × Tlb) Unit := do
  lift (Mm.pageTablePteRemove vaddr)
  invlpg slot

/-- The loops of `mfree_page`. -/
def unmapPages (slot : Nat) (t : PoolType) : Nat → Nat → Prog Stop (Vm × Tlb) Unit
  | 0, _ => pure ()
  | cnt + 1, vaddr => do
    let pgPhyAddr ← lift (addrV2p vaddr)
    let s ← lift state
    match t with
    | .user => lift (assert (pgPhyAddr % 4096 = 0 && s.userPool.phyAddrStart ≤ pgPhyAddr))
    | .kernel =>
      lift (assert (pgPhyAddr % 4096 = 0 && s.kernelPool.phyAddrStart ≤ pgPhyAddr &&
        pgPhyAddr < s.userPool.phyAddrStart))
    lift (pfree pgPhyAddr)
    pageTablePteRemove slot vaddr
    unmapPages slot t cnt (vaddr + 4096)

/-- `mfree_page`. -/
def mfreePage (slot : Nat) (pf : PoolType) (vaddr pgCnt : Nat) : Prog Stop (Vm × Tlb) Unit := do
  lift (assert (1 ≤ pgCnt && vaddr % 4096 = 0))
  let pgPhyAddr ← lift (addrV2p vaddr)
  lift (assert (pgPhyAddr % 4096 = 0 && 0x102000 ≤ pgPhyAddr))
  let s ← lift state
  if s.userPool.phyAddrStart ≤ pgPhyAddr then unmapPages slot .user pgCnt vaddr
  else unmapPages slot .kernel pgCnt vaddr
  lift (vaddrRemove pf vaddr pgCnt)

theorem pte_remove_erases : Erases (pageTablePteRemove slot vaddr)
    (Mm.pageTablePteRemove vaddr) := by
  intro s
  rw [pageTablePteRemove, bind_run]
  cases h : Mm.pageTablePteRemove vaddr s.1 with
  | done value last =>
    rw [lift_done h]
    rfl
  | stop reason =>
    rw [lift_stop h]
    rfl

theorem unmap_pages_erases (slot : Nat) (t : PoolType) :
    ∀ cnt vaddr, Erases (unmapPages slot t cnt vaddr) (Mm.unmapPages t cnt vaddr) := by
  intro cnt
  induction cnt with
  | zero => exact fun _ => erases_pure ()
  | succ cnt ih =>
    intro vaddr
    refine (erases_lift _).bind fun addr => (erases_lift _).bind fun s => ?_
    cases t <;> exact (erases_lift _).bind fun _ => (erases_lift _).bind fun _ =>
      pte_remove_erases.bind fun _ => ih _

/-- Without the buffer this is `mfree_page` of the model. -/
theorem mfree_page_erases (slot : Nat) (pf : PoolType) (vaddr pgCnt : Nat) :
    Erases (mfreePage slot pf vaddr pgCnt) (Mm.mfreePage pf vaddr pgCnt) := by
  refine (erases_lift _).bind fun _ => (erases_lift _).bind
    fun addr => (erases_lift _).bind fun _ =>
    (erases_lift _).bind fun s => ?_
  split
  · exact (unmap_pages_erases slot .user pgCnt vaddr).bind fun _ => erases_lift _
  · exact (unmap_pages_erases slot .kernel pgCnt vaddr).bind fun _ => erases_lift _

theorem lift_tlb {α : Type} (m : Call α) (s : Vm × Tlb) :
    wp any (lift m) s fun _ last => last.2 = s.2 :=
  wp_lift.2 (wp_any_of_forall fun _ _ => rfl)

theorem pte_remove_tlb (slot vaddr : Nat) (s : Vm × Tlb) :
    wp any (pageTablePteRemove slot vaddr) s fun _ last =>
      last.2 = update s.2 (slot / 4096) none := by
  refine wp_seq (lift_tlb _ s) fun _ mid hmid => ?_
  simp [invlpg, note, hmid]

/-- However many pages are freed, the page of the variable `vaddr` alone leaves the buffer. -/
theorem unmap_pages_tlb (slot : Nat) (t : PoolType) : ∀ cnt vaddr (s : Vm × Tlb),
    wp any (unmapPages slot t cnt vaddr) s fun _ last =>
      last.2 = if cnt = 0 then s.2 else update s.2 (slot / 4096) none := by
  intro cnt
  induction cnt with
  | zero => exact fun _ _ => rfl
  | succ cnt ih =>
    intro vaddr s
    refine wp_seq (lift_tlb _ s) fun addr s1 h1 => wp_seq (lift_tlb _ s1) fun vm s2 h2 => ?_
    have hchecked : ∀ s3 : Vm × Tlb, s3.2 = s2.2 → wp any (do
        lift (pfree addr)
        pageTablePteRemove slot vaddr
        unmapPages slot t cnt (vaddr + 4096)) s3 fun _ last =>
          last.2 = update s.2 (slot / 4096) none := by
      intro s3 h3
      refine wp_seq (lift_tlb _ s3) fun _ s4 h4 => ?_
      refine wp_seq (pte_remove_tlb slot vaddr s4) fun _ s5 h5 => ?_
      refine wp_mono (ih (vaddr + 4096) s5) fun _ last hlast => ?_
      rw [hlast, h5, h4, h3, h2, h1]
      split <;> simp
    cases t <;> exact wp_seq (lift_tlb _ s2) fun _ => hchecked

/-- `mfree_page` frees at least one page, so the page of the variable `vaddr` leaves the buffer. -/
theorem mfree_page_tlb (slot : Nat) (pf : PoolType) (vaddr pgCnt : Nat) (s : Vm × Tlb) :
    wp any (mfreePage slot pf vaddr pgCnt) s fun _ last =>
      last.2 = update s.2 (slot / 4096) none := by
  refine wp_seq (P := fun _ mid => pgCnt ≠ 0 ∧ mid.2 = s.2) ?_ fun _ s1 ⟨hpos, h1⟩ => ?_
  · simp only [wp_lift, wp_assert, Bool.and_eq_true, decide_eq_true_eq, and_any, and_true]
    omega
  refine wp_seq (lift_tlb _ s1) fun addr s2 h2 => wp_seq (lift_tlb _ s2) fun _ s3 h3 =>
    wp_seq (lift_tlb _ s3) fun vm s4 h4 => ?_
  have hunmap : ∀ t, wp any (do
      unmapPages slot t pgCnt vaddr
      lift (vaddrRemove pf vaddr pgCnt)) s4 fun _ last =>
        last.2 = update s.2 (slot / 4096) none := by
    intro t
    refine wp_seq (unmap_pages_tlb slot t pgCnt vaddr s4) fun _ s5 h5 => ?_
    refine wp_mono (lift_tlb _ s5) fun _ last hlast => ?_
    rw [hlast, h5, if_neg hpos, h4, h3, h2, h1]
  split <;> exact hunmap _

/-- The pages that a call of `mfree_page` frees. -/
def freedPage (vaddr i : Nat) : Nat := (vaddr / 4096 + i) % 2 ^ 20

/-- No freed page is left in the buffer. -/
def Flushed (vaddr pgCnt : Nat) (tlb : Tlb) : Prop := ∀ i < pgCnt, tlb (freedPage vaddr i) = none

/-- When `mfree_page` returns, no freed page is left in the buffer if and only if none was there
before, except for the page of the stack that holds the variable `vaddr`. -/
theorem mfree_page_flushes_iff (hdone : mfreePage slot pf vaddr pgCnt s = .done () last) :
    Flushed vaddr pgCnt last.2 ↔
      ∀ i < pgCnt, freedPage vaddr i ≠ slot / 4096 → s.2 (freedPage vaddr i) = none := by
  rw [wp_any_iff.1 (mfree_page_tlb slot pf vaddr pgCnt s) _ _ hdone]
  refine forall₂_congr fun i hi => ?_
  by_cases hslot : freedPage vaddr i = slot / 4096
  · simp [hslot]
  · simp [hslot]

/-- A page that was not used since it was mapped is freed. -/
theorem mfree_page_unused : ∃ last, mfreePage 0xc009ef80 .kernel 0xc0100000 1
    (onePage, fun _ => none) = .done () last ∧ Flushed 0xc0100000 1 last.2 := by
  obtain ⟨_, last, hdone,
    -⟩ := wp_never_iff.1 (show wp never (mfreePage 0xc009ef80 .kernel 0xc0100000 1)
    (onePage, fun _ => none) fun _ _ => True by decide +kernel)
  exact ⟨last, hdone, (mfree_page_flushes_iff hdone).2 fun _ _ _ => rfl⟩

/-- A page that was used stays in the buffer after it has been freed. -/
theorem mfree_page_stale : ∃ last, mfreePage 0xc009ef80 .kernel 0xc0100000 1
    (onePage, update (fun _ => none) 0xc0100 (some 0x200)) = .done () last ∧
      walk last.1.mem last.1.cr3 0xc0100000 = none ∧ last.2 0xc0100 = some 0x200 ∧
      ¬Flushed 0xc0100000 1 last.2 := by
  obtain ⟨_, last, hdone, hwalk, hstale⟩ := wp_never_iff.1 (show wp never
    (mfreePage 0xc009ef80 .kernel 0xc0100000 1)
    (onePage, update (fun _ => none) 0xc0100 (some 0x200)) fun _ last =>
      walk last.1.mem last.1.cr3 0xc0100000 = none ∧ last.2 0xc0100 = some 0x200 by decide +kernel)
  refine ⟨last, hdone, hwalk, hstale, fun hflushed => ?_⟩
  have hpage : last.2 0xc0100 = none := hflushed 0 (by decide)
  simp [hpage] at hstale

end Tlb

end LosKernel.Mm
