import LosKernel.Mm.Forking

/-!
# Requests that succeed

When requests return, and which frames they leave alone: with enough free frames and virtual pages
`get_kernel_pages` and `create_page_dir` succeed, and they write to no frame that was in use.
-/

namespace LosKernel.Mm

open Prog hiding update
open Function (update update_of_ne)

variable {f n cnt pages : Nat} {mem mem' : Nat → Nat → Nat} {but : Nat → Use → Prop}
  {g' g : Ghost} {strict : Prop} {s last : Vm}

/-! ## Frames that are left alone -/

/-- Frames that were in use keep their words, but for those in `but`. -/
def UsedKept (but : Nat → Use → Prop) (g : Ghost) (s last : Vm) : Prop :=
  ∀ f u, g.use f = some u → ¬but f u → last.mem f = s.mem f

/-- No frame that was in use is written. -/
abbrev noFrame : Nat → Use → Prop := fun _ _ => False

theorem UsedKept.trans {mid : Vm} (h : UsedKept but g s mid)
    (hg : ∀ f u, g.use f = some u → g'.use f = some u) (h' : UsedKept but g' mid last) :
    UsedKept but g s last :=
  fun f u hf hbut => (h' f u (hg f u hf) hbut).trans (h f u hf hbut)

theorem UsedKept.mono {but' : Nat → Use → Prop} (h : UsedKept but g s last)
    (himp : ∀ f u, but f u → but' f u) : UsedKept but' g s last :=
  fun f u hf hbut => h f u hf fun hb => hbut (himp f u hb)

theorem UsedKept.of_mem (but : Nat → Use → Prop) (h : last.mem = s.mem) : UsedKept but g s last :=
  fun f _ _ _ => congrFun h f

theorem Frames.used_frame (h : Frames strict g s) {u : Use} (hf : g.use f = some u) :
    0x200 ≤ f := by
  cases u with
  | page n => exact (h.kernel_frame hf rfl).1
  | table p i => exact (h.kernel_frame hf rfl).1
  | user p n =>
    have hstart := h.user_frame hf
    have hapart := h.layout.poolsApart
    omega

/-! ## Kernel pages -/

/-- A pool with a free frame gives one. -/
theorem Frames.palloc_returns (h : Frames strict g s) {t : PoolType} (hroom : 0 < (s.pool t).free) :
    wp never (palloc t) s fun r mid =>
      ∃ f, r = some (f * 4096) ∧ Frames strict g mid ∧ Got g t s f mid := by
  refine wp_mono (h.palloc_spec t) ?_
  intro r mid hspec
  obtain ⟨hnone, hsome⟩ := hspec
  cases r with
  | none =>
    obtain ⟨-, hempty⟩ := hnone rfl
    have hzero := (Pool.free_eq_zero_iff (s.pool t)).2 hempty
    omega
  | some addr =>
    obtain ⟨f, rfl, h1, hgot⟩ := hsome addr rfl
    exact ⟨f, rfl, h1, hgot⟩

/-- What the loop of `malloc_page` leaves for kernel pages: frames of the pools are not written,
other pages keep their entries, and the pages get frames that had no use. -/
structure PagesMapped (g : Ghost) (s : Vm) (n cnt : Nat) (last : Vm) : Prop where
  frames : ∀ f, 0x200 ≤ f → last.mem f = s.mem f
  others : ∀ m, HeapPage m → (∀ i < cnt, m ≠ n + i) → kernelEntry last.mem m = kernelEntry s.mem m
  fresh : ∀ i < cnt, ∀ f, KernelMap last.mem (n + i) f → g.use f = none

/-- Unmapped pages are mapped while there are frames. -/
theorem map_pages_returns : ∀ (cnt n : Nat) (g : Ghost) (s : Vm), Frames strict g s →
    (∀ i < cnt, HeapPage (n + i) ∧ (∀ o, g.owner (n + i) = some o → o = .reserved) ∧
      present (kernelEntry s.mem (n + i)) = false) →
    cnt ≤ s.kernelPool.free →
    wp never (mapPages .kernel cnt (n * 4096)) s fun r last =>
      r = true ∧ PagesMapped g s n cnt last := by
  intro cnt
  induction cnt with
  | zero => exact fun _ _ _ _ _ _ => ⟨rfl, fun _ _ => rfl, fun _ _ _ => rfl, by simp⟩
  | succ cnt ih =>
    intro n g s h hpages hroom
    obtain ⟨hheap, howner, habsent⟩ := hpages 0 (by omega)
    rw [Nat.add_zero] at hheap howner habsent
    refine wp_seq (h.palloc_returns (by show 0 < s.kernelPool.free; omega)) ?_
    intro r s1 hspec
    obtain ⟨f, rfl, h1, hgot⟩ := hspec
    have hfree : s1.kernelPool.free + 1 = s.kernelPool.free := hgot.free
    have habsent1 : present (kernelEntry s1.mem n) = false := by rwa [hgot.mem]
    have hadd : wp never (pageTableAdd (n * 4096) (f * 4096)) s1 fun _ last =>
        last = { s1 with
          mem := setWord s1.mem (kernelTable n) (n % 1024) (entryFor (f * 4096)) } := by
      have hself := h1.is_dir_active.self_mapped
      have hpde := h1.active_kernel_entry (v := n * 4096) (by omega) hheap
      have hpte := pte_idx_of_page (show n * 4096 / 4096 = n by omega)
      unfold kernelEntry at habsent1
      simp [pageTableAdd, wp_load_pde hself, wp_load_pte hself, wp_store_pte hself, hpde, hpte,
        habsent1]
    refine wp_seq (wp_and_any hadd
      (h1.page_table_add_kernel (by omega) hheap howner hgot.unused hgot.taken)) ?_
    intro _ s2 hspec
    obtain ⟨hs2, -, hpool2, g2, hext2, h2, -⟩ := hspec
    have hmem2 : s2.mem = setWord s.mem (kernelTable n) (n % 1024) (entryFor (f * 4096)) := by
      rw [hs2, ← hgot.mem]
    have hentry : ∀ m, HeapPage m → m ≠ n → kernelEntry s2.mem m = kernelEntry s.mem m := by
      intro m hm hne
      rw [hmem2, kernel_entry_set_word hm hheap hne]
    have hself : kernelEntry s2.mem n = entryFor (f * 4096) := by
      rw [hmem2, kernelEntry, set_word_same]
    rw [← Nat.add_one_mul]
    refine wp_mono (ih (n + 1) g2 s2 h2 ?_ (by rw [hpool2]; omega)) ?_
    · intro i hi
      rw [hext2.owner, show n + 1 + i = n + (i + 1) by omega]
      obtain ⟨hheap', howner', habsent'⟩ := hpages (i + 1) (by omega)
      exact ⟨hheap', howner', by rwa [hentry _ hheap' (by omega)]⟩
    · intro r last hlast
      obtain ⟨hr, hmapped⟩ := hlast
      have hkept : kernelEntry last.mem n = kernelEntry s2.mem n :=
        hmapped.others n hheap fun i _ => by omega
      refine ⟨hr, fun x hx => ?_, fun m hm hout => ?_, fun i hi x hx => ?_⟩
      · have hlt := kernel_table_lt hheap.2
        rw [hmapped.frames x hx, hmem2, set_word_frame_ne _ _ _ (by omega)]
      · rw [hmapped.others m hm fun i hi => ?_, hentry m hm (hout 0 (by omega))]
        have := hout (i + 1) (by omega)
        omega
      · cases i with
        | zero =>
          -- the first page keeps the frame that was allocated for it
          have hframe : frameOf (kernelEntry last.mem n) = x := hx.2.2
          rw [hkept, hself, frame_of_entry_for, Nat.mul_div_cancel _ (by decide)] at hframe
          exact hframe ▸ hgot.unused
        | succ i =>
          rw [show n + (i + 1) = n + 1 + i by omega] at hx
          have hnone := hmapped.fresh i (by omega) x hx
          by_contra hne
          obtain ⟨u, hu⟩ := Option.ne_none_iff_exists'.1 hne
          simp [hext2.use x u hu] at hnone

/-- Reserved pages are the only ones that are mapped. -/
theorem Unmapped.mapped (h : Unmapped s) {b : Nat} (hlast : PagesMapped g s (0xc0100 + b) cnt last)
    (hvaddr : last.kernelVaddr = s.kernelVaddr.mark b cnt true) : Unmapped last := by
  intro n hn hbit
  rw [hvaddr, VirtualAddr.mark_bit] at hbit
  split at hbit
  · simp at hbit
  · rename_i hout
    rw [hlast.others n hn fun i hi => by omega]
    exact h n hn hbit

/-- Kernel pages are there when bits and frames are. -/
theorem Frames.malloc_page_returns (h : Frames strict g s) (hunmapped : Unmapped s)
    (hpos : 0 < pages) (hmax : pages < 3840)
    (hbits : (reserveBits s.kernelVaddr.vaddrMap pages).isSome = true)
    (hfree : pages ≤ s.kernelPool.free) :
    wp never (mallocPage .kernel pages) s fun r last =>
      ∃ v, r = some v ∧ Unmapped last ∧ PagesMapped g s (v / 4096) pages last ∧
        last.nextPid = s.nextPid := by
  obtain ⟨b, hscan⟩ : ∃ b, bitmapScan s.kernelVaddr.vaddrMap pages = some b := by
    rw [reserveBits, Option.isSome_map] at hbits
    exact Option.isSome_iff_exists.1 hbits
  obtain ⟨hpages, h1⟩ := h.reserve hpos hscan
  have habsent : ∀ i < pages, present (kernelEntry s.mem (0xc0100 + b + i)) = false := by
    intro i hi
    refine hunmapped _ (hpages i hi).1 ?_
    rw [show 0xc0100 + b + i - 0xc0100 = b + i by omega]
    exact (bitmap_scan_eq_some _ hpos hscan).2 i hi
  have hstart := h.layout.heapStart
  have hassert : (decide (0 < pages) && decide (pages < 3840)) = true := by simp [hpos, hmax]
  simp only [mallocPage, vaddrGet, wp_bind, wp_assert, wp_state, hscan, wp_update,
    wp_pure, hassert, of_true]
  rw [show s.kernelVaddr.vaddrStart + b * 4096 = (0xc0100 + b) * 4096 by omega]
  refine wp_mono (wp_and_any (map_pages_returns pages (0xc0100 + b) _ _ h1 ?_ hfree)
    (keeps_map_pages .kernel pages ((0xc0100 + b) * 4096) _)) ?_
  · intro i hi
    rw [Ghost.set_owner_in _ _ (by omega) (by omega)]
    exact ⟨(hpages i hi).1, by simp, habsent i hi⟩
  · intro r last hspec
    obtain ⟨⟨rfl, hmapped⟩, hquiet⟩ := hspec
    have hmapped' : PagesMapped g s (0xc0100 + b) pages last :=
      ⟨hmapped.frames, hmapped.others, hmapped.fresh⟩
    refine ⟨_, rfl, hunmapped.mapped hmapped' hquiet.kernelVaddr, ?_, hquiet.nextPid⟩
    rwa [Nat.mul_div_cancel _ (by decide)]

/-- Requests for kernel pages that can all be reserved, one after the other. -/
theorem reserve_all_cons {m : BitMap} {rest : List Nat} :
    ((cnt :: rest).foldlM reserveBits m).isSome = true ↔
      ∃ m', reserveBits m cnt = some m' ∧ (rest.foldlM reserveBits m').isSome = true := by
  rw [List.foldlM_cons]
  cases reserveBits m cnt with
  | none => simp
  | some m' => simp

/-- Pages that somebody held are mapped where they were. -/
def MapsKept (g : Ghost) (s last : Vm) : Prop :=
  ∀ n f, g.owner n ≠ none → KernelMap s.mem n f → KernelMap last.mem n f

/-- A request for kernel pages was served from frames and pages that were not in use. -/
structure Fetched (strict : Prop) (g : Ghost) (s : Vm) (g' : Ghost) (last : Vm) (pages v : Nat)
    (o : Owner) : Prop where
  grown : Grown strict g s g' last
  served : Served g s g' last pages v o
  unmapped : Unmapped last
  kept : UsedKept noFrame g s last
  maps : MapsKept g s last
  fresh : ∀ i < pages, ∀ f, KernelMap last.mem (v / 4096 + i) f → g.use f = none
  nextPid : last.nextPid = s.nextPid

/-- Where a kernel page is mapped is said by its entry. -/
theorem kernel_map_of_entry (h : HeapPage n → kernelEntry mem' n = kernelEntry mem n) :
    KernelMap mem' n f ↔ KernelMap mem n f := by
  unfold kernelEntry at h
  refine and_congr_right fun hn => ?_
  rw [h hn]

theorem kernel_map_congr (h : ∀ f < 0x200, mem' f = mem f) :
    KernelMap mem' n f ↔ KernelMap mem n f :=
  kernel_map_of_entry fun hn => kernel_entry_congr h hn

/-- `get_kernel_pages` succeeds when there are frames and virtual pages. -/
theorem Frames.take_pages_returns (h : Frames strict g s) (hunmapped : Unmapped s)
    (hpos : 0 < pages) (hmax : pages < 3840)
    (hbits : (reserveBits s.kernelVaddr.vaddrMap pages).isSome = true)
    (hfree : pages ≤ s.kernelPool.free) (o : Nat → Owner) :
    wp never (getKernelPages pages) s fun r last =>
      ∃ v g', r = some v ∧ Fetched strict g s g' last pages v (o v) := by
  have hreturns : wp never (getKernelPages pages) s fun r last =>
      ∃ v, r = some v ∧ Unmapped last ∧ UsedKept noFrame g s last ∧
        (∀ n f, (∀ i < pages, n ≠ v / 4096 + i) → KernelMap s.mem n f → KernelMap last.mem n f) ∧
        last.nextPid = s.nextPid ∧ ∀ i < pages, ∀ f, KernelMap last.mem (v / 4096 + i) f →
        g.use f = none := by
    refine wp_seq (wp_and_any (h.malloc_page_returns hunmapped hpos hmax hbits hfree)
      (h.malloc_page_kernel pages)) ?_
    intro r mid hspec
    obtain ⟨⟨v, rfl, hunmapped1, hmapped1, hpid1⟩, -, -, -, g1, hgrows, h1, hserved⟩ := hspec
    obtain ⟨haligned, -, hpages⟩ := hserved v rfl
    simp only [wp_bind]
    rw [show v = v / 4096 * 4096 by omega]
    refine wp_mono (zero_pages_spec pages (v / 4096) mid h1 fun i hi =>
      ⟨(hpages i hi).2.2, by simp [(hpages i hi).2.1]⟩) ?_
    intro _ last hlast
    obtain ⟨hside, -, -, -, -, hsame⟩ := hlast
    have hquiet := hside.quiet
    have hlow : ∀ f < 0x200, last.mem f = mid.mem f := by
      refine fun f hf => hsame f fun i hi hmap => ?_
      have := (h1.kernel_frame hmap.2 rfl).1
      omega
    refine ⟨_, rfl, hunmapped1.congr hlow hquiet.kernelVaddr, fun f u hf _ => ?_,
      fun n f hout hmap => ?_,
      hquiet.nextPid.trans hpid1, fun i hi f hmap => ?_⟩
    · rw [hsame f fun i hi hmap => ?_, hmapped1.frames f (h.used_frame hf)]
      simp [hmapped1.fresh i hi f hmap.1] at hf
    · rw [Nat.mul_div_cancel _ (by decide)] at hout
      rw [kernel_map_congr hlow]
      exact (kernel_map_of_entry fun hn => hmapped1.others n hn hout).2 hmap
    · rw [Nat.mul_div_cancel _ (by decide)] at hmap
      exact hmapped1.fresh i hi f ((kernel_map_congr hlow).1 hmap)
  refine wp_mono (wp_and_any hreturns (h.take_pages pages o)) ?_
  intro r last hspec
  obtain ⟨⟨v, rfl, hunmapped', hkept, hmaps, hpid, hfresh⟩, g', hgrown, hserved⟩ := hspec
  refine ⟨v, g', rfl, hgrown, hserved v rfl, hunmapped', hkept, fun n f hn hmap => ?_, hfresh, hpid⟩
  refine hmaps n f (fun i hi heq => hn ?_) hmap
  rw [heq]
  exact (hserved v rfl).fresh i hi

/-! ## Page directories and copies -/

theorem wp_copy_page {ok : Stop → Prop} {dst src x y : Nat} (hsrc : walk s.mem s.cr3 src = some y)
    (hdst : walk s.mem s.cr3 dst = some x) {Q : Unit → Vm → Prop} :
    wp ok (copyPage dst src 0) s Q ↔
      Q () { s with mem := update s.mem x (s.mem y) } := by
  simp [copyPage, hsrc, hdst]

theorem Fetched.frame {v i : Nat} {o : Owner} (h : Fetched strict g s g' last pages v o)
    (ho : o ≠ .reserved) (hi : i < pages) :
    ∃ f, Mapped g' last.mem (v / 4096 + i) f ∧ g.use f = none ∧ 0x200 ≤ f := by
  obtain ⟨-, -, hmapped⟩ := h.grown.frames.owned _ _ (h.served.owner i hi)
  obtain ⟨f, hmap⟩ := hmapped ho
  exact ⟨f, hmap, h.fresh i hi f hmap.1, h.grown.frames.used_frame hmap.2⟩

/-- `create_page_dir` succeeds when there are a frame and a virtual page. -/
theorem Frames.create_page_dir_returns (h : Frames strict g s) (hunmapped : Unmapped s)
    (hbits : (reserveBits s.kernelVaddr.vaddrMap 1).isSome = true) (hfree : 0 < s.kernelPool.free) :
    wp never createPageDir s fun r last =>
      r ≠ 0 ∧ Unmapped last ∧ UsedKept noFrame g s last ∧ MapsKept g s last ∧
        last.nextPid = s.nextPid ∧ ∀ f, KernelMap last.mem (r / 4096) f → g.use f = none := by
  refine wp_seq (h.take_pages_returns hunmapped (by decide) (by decide) hbits hfree
    fun v => .range v) ?_
  intro r mid hspec
  obtain ⟨v, g', rfl, hfetched⟩ := hspec
  have h1 := hfetched.grown.frames
  obtain ⟨f, hmap, hnew, hf⟩ := hfetched.frame (by simp) (show 0 < 1 by decide)
  rw [Nat.add_zero] at hmap
  have haligned := hfetched.served.aligned
  have hplain : Plain g' f := by
    refine h1.plain_mapped hmap fun p hp => ?_
    have howner := hfetched.served.owner 0 (by decide)
    rw [Nat.add_zero, hp] at howner
    simp at howner
  refine (h1.wp_fill_dir hmap hplain haligned).2 ?_
  have hother : ∀ x, x ≠ f → withDir mid.mem mid.cr3 f x = mid.mem x :=
    fun x hx => with_dir_ne _ _ hx
  have hlow : ∀ x < 0x200, withDir mid.mem mid.cr3 f x = mid.mem x :=
    fun x hx => hother x (by omega)
  refine ⟨?_, hfetched.unmapped.congr hlow rfl, fun x u hu hbut => ?_, fun n y hn hmap => ?_,
    hfetched.nextPid, fun y hy => ?_⟩
  · have := hmap.1.1.1
    omega
  · have hxf : x ≠ f := by
      rintro rfl
      simp [hnew] at hu
    exact (hother x hxf).trans (hfetched.kept x u hu hbut)
  · exact (kernel_map_congr hlow).2 (hfetched.maps n y hn hmap)
  · obtain rfl : f = y := hmap.1.2.2.symm.trans ((kernel_map_congr hlow).1 hy).2.2
    exact hnew

end LosKernel.Mm
