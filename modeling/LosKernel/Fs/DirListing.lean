import LosKernel.Fs.DirContents
import LosKernel.Fs.PathExact

/-!
# Listing a directory

`dir_read` counts live entries from the first block on up to `dir_pos`, and `search_dir_entry`
compares the name of every slot. `listing` lists the live entries of a directory; the `m`-th call
of `dir_read` returns its `m`-th element (`dir_read_spec`), and a search finds a name exactly when
an element has it (`lookup_entry_listing`).
-/

namespace LosKernel

open Prog

variable {b : Bytes} {blocks : Nat → UInt32} {ok : Stop → Prop} {s : Kernel} {d p : Ptr}
  {inode : INode} {m : Nat}
open DirEntry (ofBlock)

/-! ## The entries in order -/

/-- The live entries of `count` slots of a block from `idx` on. -/
def slotListing (b : Bytes) (idx count : Nat) : List DirEntry :=
  ((List.range' idx count).map (ofBlock b)).filter DirEntry.live

/-- The live entries of `count` blocks from `idx` on. -/
def blockListing (disk : Bytes) (blocks : Nat → UInt32) (idx count : Nat) : List DirEntry :=
  (List.range' idx count).flatMap fun k =>
    if blocks k = 0 then [] else slotListing (sectorAt disk (blocks k).toNat) 0 21

/-- The live entries of a directory in the order of its blocks. -/
def listing (s : Kernel) (inode : INode) : List DirEntry :=
  blockListing s.disk (blocksOf s.disk inode) 0 140

/-- The file name of an entry. -/
def DirEntry.name (e : DirEntry) : CStr :=
  cstrAt (fun i => if h : i < 16 then e.filename ⟨i, h⟩ else 0) 0 16

theorem slot_listing_succ (b : Bytes) (idx count : Nat) :
    slotListing b idx (count + 1) = if (ofBlock b idx).live then
      ofBlock b idx :: slotListing b (idx + 1) count else slotListing b (idx + 1) count := by
  rw [slotListing, List.range'_succ, List.map_cons]
  split
  · rename_i hlive
    rw [List.filter_cons_of_pos hlive]
    rfl
  · rename_i hdead
    rw [List.filter_cons_of_neg hdead]
    rfl

theorem block_listing_succ (disk : Bytes) (blocks : Nat → UInt32) (idx count : Nat) :
    blockListing disk blocks idx (count + 1) =
      (if blocks idx = 0 then [] else slotListing (sectorAt disk (blocks idx).toNat) 0 21) ++
        blockListing disk blocks (idx + 1) count := by
  rfl

/-- The list and the multiset of the entries of a directory. -/
theorem listing_eq_entries (s : Kernel) (inode : INode) :
    (listing s inode : Multiset DirEntry) = entries s inode := by
  have hslots : ∀ b, (slotListing b 0 21 : Multiset DirEntry) = blockEntries b := by
    intro b
    have hslot : slotEntry b = fun j => (([ofBlock b j].filter DirEntry.live :
        List DirEntry) : Multiset DirEntry) := by
      funext j
      unfold slotEntry
      split <;> simp [*]
    rw [blockEntries, hslot, bag_coe_eq_flatMap, ← List.filter_flatMap, slotListing,
      List.range_eq_range', List.map_eq_flatMap]
  have hblock : entriesAt s.disk inode = fun k => ((if blocksOf s.disk inode k = 0 then [] else
      slotListing (sectorAt s.disk (blocksOf s.disk inode k).toNat) 0 21 : List DirEntry) :
        Multiset DirEntry) := by
    funext k
    unfold entriesAt
    split <;> simp [hslots]
  rw [entries, hblock, bag_coe_eq_flatMap, List.range_eq_range', listing, blockListing]

/-! ## Names -/

/-- A string that ends within `limit` bytes does not depend on a larger limit. -/
theorem cstr_at_limit {c : Bytes} {off off' : Nat} : ∀ {limit limit' : Nat}, limit ≤ limit' →
    (∀ i < limit, b (off + i) = c (off' + i)) → (∃ i < limit, b (off + i) = 0) →
    cstrAt b off limit' = cstrAt c off' limit := by
  intro limit
  induction limit generalizing off off' with
  | zero => intro limit' _ _ ⟨i, hi, _⟩; omega
  | succ limit ih =>
    intro limit' hle hsame ⟨i, hi, hzero⟩
    obtain ⟨rest, rfl⟩ : ∃ rest, limit' = rest + 1 := ⟨limit' - 1, by omega⟩
    have hfirst := hsame 0 (by omega)
    unfold cstrAt
    by_cases hend : b off = 0
    · rw [if_pos hend, if_pos (hfirst ▸ hend)]
    · rw [if_neg hend, if_neg (hfirst ▸ hend)]
      congr 1
      refine ih (by omega) (fun j hj => ?_) ⟨i - 1, ?_, ?_⟩
      · have := hsame (j + 1) (by omega)
        rwa [show off + (j + 1) = off + 1 + j by omega,
          show off' + (j + 1) = off' + 1 + j by omega] at this
      · have : i ≠ 0 := by
          rintro rfl
          exact hend hzero
        omega
      · have : i ≠ 0 := by
          rintro rfl
          exact hend hzero
        rwa [show off + 1 + (i - 1) = off + i by omega]

/-- A slot whose name is zero terminated. -/
def Terminated (b : Bytes) (j : Nat) : Prop := ∃ i < 16, b (24 * j + i) = 0

theorem cstr_at_eq_name {j : Nat} (hj : j < 21) (h : Terminated b j) :
    cstrAt b (24 * j) (512 - 24 * j) = (ofBlock b j).name := by
  refine cstr_at_limit (by omega) (fun i hi => ?_) h
  simp [ofBlock, hi]

/-! ## Reading one entry -/

/-- The position behind `m` entries. -/
def entryPos (m : Nat) : UInt32 := UInt32.ofNat (24 * m)

theorem entry_pos_toNat (h : m ≤ 2940) : (entryPos m).toNat = 24 * m := by
  rw [entryPos, UInt32.toNat_ofNat']
  omega

theorem entry_pos_succ (m : Nat) : entryPos m + 24 = entryPos (m + 1) := by
  rw [entryPos, entryPos, Nat.mul_succ, UInt32.ofNat_add]
  rfl

theorem entry_pos_lt {n : Nat} (hm : m ≤ 2940) (hn : n ≤ 2940) :
    entryPos m < entryPos n ↔ m < n := by
  rw [UInt32.lt_iff_toNat_lt, entry_pos_toNat hm, entry_pos_toNat hn]
  omega

/-- The inner loop of `dir_read` for entry `m` of the directory, when `c` entries were counted
before: it passes over the slots, or it returns the slot of the entry. -/
inductive SlotsRead (b : Bytes) (m c idx count : Nat) : Option Nat × UInt32 → Prop where
  | passed (hle : c + (slotListing b idx count).length ≤ m) :
      SlotsRead b m c idx count (none, entryPos (c + (slotListing b idx count).length))
  | found (j : Nat) (hj : j < idx + count)
      (hget : (slotListing b idx count)[m - c]? = some (ofBlock b j))
      (hlive : (ofBlock b j).live = true) : SlotsRead b m c idx count (some j, entryPos m)

/-- The inner loop of `dir_read` counts the live entries of a block. -/
theorem read_slots_spec (hm : m ≤ 2940) (count : Nat) : ∀ idx c, c ≤ m →
    wp ok (readSlots b (entryPos m) 24 count idx (entryPos c)) s fun r last =>
      SlotsRead b m c idx count r ∧ last = s := by
  induction count with
  | zero =>
    intro idx c hle
    exact ⟨.passed hle, rfl⟩
  | succ count ih =>
    intro idx c hle
    unfold readSlots
    have hlist := slot_listing_succ b idx count
    by_cases hlive : (ofBlock b idx).live = true
    · rw [if_pos hlive] at hlist ⊢
      by_cases hlt : c < m
      · rw [if_pos ((entry_pos_lt (by omega) hm).2 hlt), entry_pos_succ]
        refine wp_mono (ih (idx + 1) (c + 1) hlt) fun r last ⟨hr, hlast⟩ => ⟨?_, hlast⟩
        cases hr with
        | passed hle' =>
          have hlen : c + 1 + (slotListing b (idx + 1) count).length =
              c + (slotListing b idx (count + 1)).length := by
            rw [hlist, List.length_cons]
            omega
          rw [hlen] at hle' ⊢
          exact .passed hle'
        | found j hj hget hjlive =>
          refine .found j (by omega) ?_ hjlive
          rw [hlist, show m - c = m - (c + 1) + 1 by omega]
          exact hget
      · obtain rfl : c = m := by omega
        rw [if_neg (fun h => hlt ((entry_pos_lt hm hm).1 h)), wp_bind, wp_assert]
        refine ⟨fun _ => ⟨.found idx (by omega) ?_ hlive, rfl⟩, fun hne => ?_⟩
        · rw [hlist, Nat.sub_self, List.getElem?_cons_zero]
        · exact absurd rfl (of_decide_eq_false hne)
    · rw [if_neg hlive] at hlist ⊢
      refine wp_mono (ih (idx + 1) c hle) fun r last ⟨hr, hlast⟩ => ⟨?_, hlast⟩
      cases hr with
      | passed hle' =>
        rw [← hlist] at hle' ⊢
        exact .passed hle'
      | found j hj hget hjlive => exact .found j (by omega) (hlist ▸ hget) hjlive

/-- The position of directory `d` is set. -/
def Kernel.seekDir (s : Kernel) (d : Ptr) (pos : UInt32) : Kernel :=
  { s with
    dirs := s.dirs.map fun entry =>
      if entry.1 = d then (entry.1, { entry.2 with dirPos := pos }) else entry }

theorem lookup_seek_dir {pos pos' : UInt32} {dirs : List (Ptr × Dir)}
    (h : dirs.lookup d = some ⟨p, pos⟩) :
    (dirs.map fun entry => if entry.1 = d then (entry.1, { entry.2 with dirPos := pos' })
      else entry).lookup d = some ⟨p, pos'⟩ := by
  induction dirs with
  | nil => exact absurd h (by simp)
  | cons entry dirs ih =>
    rw [List.map_cons]
    by_cases heq : entry.1 = d
    · subst heq
      rw [List.lookup_cons_self] at h
      rw [if_pos rfl, List.lookup_cons_self, Option.some.inj h]
    · rw [if_neg heq]
      have hne : (d == entry.1) = false := by simpa using fun h => heq h.symm
      rw [List.lookup_cons, hne] at h ⊢
      exact ih h

/-- The names in a block are zero terminated. -/
def NamesEnd (b : Bytes) : Prop :=
  ∀ j < 21, (ofBlock b j).live = true → Terminated b j

/-- The representation of a directory that is listed and searched: its blocks can be read, its size
counts the live entries, dead slots are zero, and names are zero terminated. -/
structure ListingOk (s : Kernel) (inode : INode) : Prop where
  entrySize : s.part.sb.dirEntrySize = 24
  readable : BlocksReadable s.disk inode
  size : inode.iSize.toNat = 24 * (listing s inode).length
  dead : ∀ k < 140, blocksOf s.disk inode k ≠ 0 →
    DeadZero (sectorAt s.disk (blocksOf s.disk inode k).toNat)
  names : ∀ k < 140, blocksOf s.disk inode k ≠ 0 →
    NamesEnd (sectorAt s.disk (blocksOf s.disk inode k).toNat)

/-- The outer loop of `dir_read` for entry `m` of the directory, when `c` entries were counted
before. -/
theorem read_blocks_spec (hdir : s.dirs.lookup d = some ⟨p, entryPos m⟩)
    (hinode : s.inodes p = some inode) (hm : m ≤ 2940) (hsize : 24 * m < inode.iSize.toNat)
    (hentry : s.part.sb.dirEntrySize = 24) (count : Nat) : ∀ idx c, c ≤ m →
    (∀ k, idx ≤ k → k < idx + count → blocks k ≠ 0 → (blocks k).toNat ≤ maxLba ∧
      NamesEnd (sectorAt s.disk (blocks k).toNat)) →
    m < c + (blockListing s.disk blocks idx count).length →
    wp ok (readBlocks d blocks count idx (entryPos c)) s fun r last =>
      ∃ e, (blockListing s.disk blocks idx count)[m - c]? = some e ∧ r = some (e, e.name) ∧
        last = s.seekDir d (entryPos (m + 1)) := by
  have hmore : ¬inode.iSize ≤ entryPos m := by
    rw [UInt32.le_iff_toNat_le, entry_pos_toNat hm]
    omega
  have hper : dirEntrysPerSec s.part.sb = 21 := by simp [dirEntrysPerSec, hentry]
  induction count with
  | zero =>
    intro idx c hle _ hlt
    exact absurd hlt (by simp [blockListing]; omega)
  | succ count ih =>
    intro idx c hle hblocks hlt
    have hlist := block_listing_succ s.disk blocks idx count
    unfold readBlocks
    simp only [wp_bind, wp_deref_dir, hdir, of_some, wp_deref_inode, hinode, hmore, if_false]
    by_cases hzero : blocks idx = 0
    · rw [if_pos hzero] at hlist ⊢
      rw [hlist] at hlt ⊢
      exact ih (idx + 1) c hle (fun k hk hk' => hblocks k (by omega) (by omega)) hlt
    rw [if_neg hzero] at hlist ⊢
    obtain ⟨hread, hnames⟩ := hblocks idx le_rfl (by omega) hzero
    simp only [wp_bind]
    refine wp_read_sector (.inr hread) ?_
    rw [hentry, hper]
    refine wp_mono (read_slots_spec hm 21 0 c hle) ?_
    rintro r last ⟨hr, hlast⟩
    rw [hlast]
    cases hr with
    | passed hpassed =>
      have hlen : (blockListing s.disk blocks idx (count + 1)).length =
          (slotListing (sectorAt s.disk (blocks idx).toNat) 0 21).length +
            (blockListing s.disk blocks (idx + 1) count).length := by
        rw [hlist, List.length_append]
      refine wp_mono (ih (idx + 1) _ hpassed
        (fun k hk hk' => hblocks k (by omega) (by omega)) (by omega)) ?_
      rintro r last ⟨e, hget, hr⟩
      refine ⟨e, ?_, hr⟩
      rw [hlist, List.getElem?_append_right (by omega), ← hget]
      congr 1
      omega
    | found j hj hget hlive =>
      have hin := (List.getElem?_eq_some_iff.1 hget).1
      simp only [storeDirPos, wp_bind, wp_deref_dir, hdir, of_some, entry_pos_succ]
      refine ⟨ofBlock (sectorAt s.disk (blocks idx).toNat) j, ?_, ?_, rfl⟩
      · rw [hlist, List.getElem?_append_left hin, hget]
      · rw [cstr_at_eq_name hj (hnames j hj hlive)]

theorem listing_length_le (s : Kernel) (inode : INode) : (listing s inode).length ≤ 2940 := by
  rw [← Multiset.coe_card, listing_eq_entries]
  exact card_entries_le s inode

/-- The blocks behind the direct ones are missing in a directory without an indirect table. -/
theorem listing_eq_block_listing (s : Kernel) (inode : INode) :
    listing s inode = blockListing s.disk (blocksOf s.disk inode) 0
      (if inode.sector 12 ≠ 0 then 140 else 12) := by
  split
  · rfl
  · rename_i htable
    have hrest : blockListing s.disk (blocksOf s.disk inode) 12 128 = [] := by
      refine List.flatMap_eq_nil_iff.2 fun k hk => if_pos ?_
      have hle := (List.mem_range'_1.1 hk).1
      simp [blocksOf, htable, show ¬k < 12 by omega]
    have hsplit : listing s inode = blockListing s.disk (blocksOf s.disk inode) 0 12 ++
        blockListing s.disk (blocksOf s.disk inode) 12 128 := by
      rw [listing, blockListing, blockListing, blockListing, ← List.flatMap_append,
        List.range'_append_1]
    rw [hsplit, hrest, List.append_nil]

/-- A call of `dir_read` at the position behind `m` entries returns entry `m`, or `NULL` behind the
last one. -/
theorem dir_read_spec (h : ListingOk s inode) (hdir : s.dirs.lookup d = some ⟨p, entryPos m⟩)
    (hinode : s.inodes p = some inode) (hm : m ≤ (listing s inode).length) :
    wp ok (dirRead d) s fun r last =>
      (∀ e, (listing s inode)[m]? = some e →
        r = some (e, e.name) ∧ last = s.seekDir d (entryPos (m + 1))) ∧
      (m = (listing s inode).length → r = none ∧ last = s) := by
  have hbound := listing_length_le s inode
  have hlist := listing_eq_block_listing s inode
  have hcount : 0 < (if inode.sector 12 ≠ 0 then 140 else 12) := by split <;> decide
  have hmax : (if inode.sector 12 ≠ 0 then 140 else 12) ≤ 140 := by split <;> decide
  simp only [dirRead, dirInode, wp_bind, wp_deref_dir, hdir, of_some, wp_deref_inode, hinode]
  refine wp_all_blocks_of ?_ fun htable hlarge => absurd (h.readable.table htable) (by omega)
  generalize (if inode.sector 12 ≠ 0 then 140 else 12) = count at hlist hcount hmax ⊢
  by_cases hlt : m < (listing s inode).length
  · have hblocks : ∀ k, 0 ≤ k → k < 0 + count → blocksOf s.disk inode k ≠ 0 →
        (blocksOf s.disk inode k).toNat ≤ maxLba ∧
          NamesEnd (sectorAt s.disk (blocksOf s.disk inode k).toNat) :=
      fun k _ hk hused => ⟨h.readable.blocks k hused, h.names k (by omega) hused⟩
    have hsize := h.size
    refine wp_mono (read_blocks_spec hdir hinode (by omega) (by omega) h.entrySize count 0 0
      (Nat.zero_le _) hblocks (by rw [← hlist]; omega)) ?_
    rintro r last ⟨e, hget, hr, hlast⟩
    rw [← hlist] at hget
    refine ⟨fun e' hget' => ?_, fun heq => absurd hlt (by omega)⟩
    obtain rfl := Option.some.inj (hget.symm.trans hget')
    exact ⟨hr, hlast⟩
  · obtain ⟨rest, rfl⟩ : ∃ rest, count = rest + 1 := ⟨count - 1, by omega⟩
    unfold readBlocks
    simp only [wp_bind, wp_deref_dir, hdir, of_some, wp_deref_inode, hinode]
    have hend : inode.iSize ≤ entryPos m := by
      rw [UInt32.le_iff_toNat_le, entry_pos_toNat (by omega), h.size]
      omega
    rw [if_pos hend]
    refine ⟨fun e hget => ?_, fun _ => ⟨rfl, rfl⟩⟩
    exact absurd (List.getElem?_eq_some_iff.1 hget).1 hlt

/-! ## Reading the whole directory -/

/-- The results of `calls` calls of `dir_read` in a row. -/
def dirReads (dir : Ptr) : Nat → Call (List (Option (DirEntry × CStr)))
  | 0 => pure []
  | calls + 1 => do
    let first ← dirRead dir
    let rest ← dirReads dir calls
    pure (first :: rest)

theorem ListingOk.of_dirs (h : ListingOk s inode) (dirs : List (Ptr × Dir)) :
    ListingOk { s with dirs := dirs } inode :=
  ⟨h.entrySize, h.readable, h.size, h.dead, h.names⟩

/-- From the position behind `m` entries on, the calls return the entries that are left and then
`NULL`. -/
theorem dir_reads_spec (calls : Nat) :
    ∀ {s : Kernel} {m : Nat}, ListingOk s inode → s.dirs.lookup d = some ⟨p, entryPos m⟩ →
    s.inodes p = some inode → m ≤ (listing s inode).length →
    wp ok (dirReads d calls) s fun rs last =>
      rs = (((listing s inode).drop m).map fun e => some (e, e.name)).take calls ++
          List.replicate (calls - ((listing s inode).length - m)) none ∧
        last = { s with dirs := last.dirs } := by
  induction calls with
  | zero => exact fun _ _ _ _ => ⟨by simp, rfl⟩
  | succ calls ih =>
    intro s m h hdir hinode hm
    refine wp_seq (dir_read_spec h hdir hinode hm) fun r mid ⟨hnext, hend⟩ => ?_
    rw [wp_bind]
    by_cases hlt : m < (listing s inode).length
    · obtain ⟨rfl, rfl⟩ := hnext _ (List.getElem?_eq_getElem hlt)
      have hseek : (s.seekDir d (entryPos (m + 1))).dirs.lookup d =
          some ⟨p, entryPos (m + 1)⟩ := lookup_seek_dir hdir
      refine wp_mono (ih (h.of_dirs _) hseek hinode hlt) fun rs last ⟨hrs, hlast⟩ => ?_
      refine ⟨?_, hlast⟩
      have hleft : calls + 1 - ((listing s inode).length - m) =
          calls - ((listing s inode).length - (m + 1)) := by omega
      rw [List.drop_eq_getElem_cons hlt, hleft, hrs]
      rfl
    · obtain rfl : m = (listing s inode).length := by omega
      obtain ⟨rfl, rfl⟩ := hend rfl
      refine wp_mono (ih h hdir hinode le_rfl) fun rs last ⟨hrs, hlast⟩ => ?_
      refine ⟨?_, hlast⟩
      rw [hrs]
      simp [List.replicate_succ]

/-! ## Searching for a name -/

/-- The inner loop of `search_dir_entry` returns the first live entry with the name. -/
theorem find_name_eq_find {name : CStr} (hname : name ≠ []) (hdead : DeadZero b)
    (hnames : NamesEnd b) (count : Nat) : ∀ idx, idx + count ≤ 21 →
    findName b name count idx = (slotListing b idx count).find? (·.name = name) := by
  induction count with
  | zero => exact fun _ _ => rfl
  | succ count ih =>
    intro idx hle
    unfold findName
    rw [slot_listing_succ]
    by_cases hlive : (ofBlock b idx).live = true
    · rw [if_pos hlive, cstr_at_eq_name (by omega) (hnames idx (by omega) hlive)]
      by_cases heq : (ofBlock b idx).name = name
      · rw [if_pos heq, List.find?_cons_of_pos (by simpa using heq)]
      · rw [if_neg heq, List.find?_cons_of_neg (by simpa using heq), ih (idx + 1) (by omega)]
    · -- the name of a dead slot is empty
      have hzero : b (24 * idx) = 0 :=
        hdead idx (by omega) (by simpa using hlive) 0 (by omega)
      have hempty : cstrAt b (24 * idx) (512 - 24 * idx) = [] := by
        obtain ⟨limit, hlimit⟩ : ∃ limit, 512 - 24 * idx = limit + 1 :=
          ⟨512 - 24 * idx - 1, by omega⟩
        rw [hlimit, cstrAt, if_pos hzero]
      rw [if_neg hlive, hempty, if_neg (fun h => hname h.symm), ih (idx + 1) (by omega)]

/-- A search through the blocks returns the first live entry with the name. -/
theorem lookup_blocks_eq_find {disk : Bytes} {name : CStr} (hname : name ≠ []) (count : Nat) :
    ∀ idx,
    (∀ k, idx ≤ k → k < idx + count → blocks k ≠ 0 →
      DeadZero (sectorAt disk (blocks k).toNat) ∧ NamesEnd (sectorAt disk (blocks k).toNat)) →
    lookupBlocks disk 21 blocks name count idx =
      (blockListing disk blocks idx count).find? (·.name = name) := by
  induction count with
  | zero => exact fun _ _ => rfl
  | succ count ih =>
    intro idx hblocks
    have hrest := ih (idx + 1) fun k hle hlt => hblocks k (by omega) (by omega)
    unfold lookupBlocks
    rw [block_listing_succ, hrest]
    by_cases hzero : blocks idx = 0
    · rw [if_pos hzero, if_pos hzero, List.nil_append]
    · obtain ⟨hdead, hnames⟩ := hblocks idx le_rfl (by omega) hzero
      rw [if_neg hzero, if_neg hzero, List.find?_append,
        find_name_eq_find hname hdead hnames 21 0 (by omega)]
      cases (slotListing (sectorAt disk (blocks idx).toNat) 0 21).find? (·.name = name) <;> rfl

/-- `search_dir_entry` looks the name up and changes nothing but the heap. -/
theorem search_open_dir_spec {dir : Dir} {name : CStr} (hheap : HeapOk s)
    (hread : BlocksReadable s.disk inode) (hdir : s.dirs.lookup d = some dir) (hp : dir.inode = p)
    (hinode : s.inodes p = some inode) :
    wp never (searchDirEntry d name) s fun r last =>
      r = lookupEntry s inode name ∧ SameButHeap s last := by
  subst hp
  unfold searchDirEntry
  rw [wp_bind, wp_sys_malloc]
  refine ⟨fun _ => ?_, fun hrefused => absurd ((hheap _ _).symm.trans hrefused) (by simp)⟩
  simp only [wp_bind, dirInode, wp_deref_dir, hdir, of_some, wp_deref_inode, hinode]
  refine wp_all_blocks_of ?_ fun htable hlarge => absurd (hread.table htable) (by omega)
  rw [wp_sys_malloc]
  refine ⟨fun _ => ?_, fun hrefused => absurd ((hheap _ _).symm.trans hrefused) (by simp)⟩
  refine wp_mono (search_blocks_spec (.inr ⟨rfl, hread.blocks⟩) 140 0) ?_
  rintro r last ⟨hr, hlast⟩
  subst hlast
  refine ⟨hr, _, ?_, rfl⟩
  show s.heap.requests ≤ s.heap.requests + 1 + 1
  omega

/-- Listing and lookup agree. From position 0 on, the calls of `dir_read` return the live entries of
a directory once each in block order and then `NULL`. When memory is served, `search_dir_entry`
finds a name exactly when one of the entries returned has it. -/
theorem listing_and_lookup_agree {s : Kernel} {d p : Ptr} {inode : INode} (h : ListingOk s inode)
    (hdir : s.dirs.lookup d = some ⟨p, 0⟩) (hinode : s.inodes p = some inode) :
    (listing s inode : Multiset DirEntry) = entries s inode ∧
    (∀ calls, ∃ last, dirReads d calls s = .done
        (((listing s inode).map fun e => some (e, e.name)).take calls ++
          List.replicate (calls - (listing s inode).length) none) last ∧
      last = { s with dirs := last.dirs }) ∧
    (HeapOk s → ∀ name, name ≠ [] → ∃ r last, searchDirEntry d name s = .done r last ∧
      (r.isSome ↔ ∃ e ∈ listing s inode, e.name = name) ∧
      ∀ e, r = some e → e ∈ listing s inode ∧ e.name = name) := by
  refine ⟨listing_eq_entries s inode, fun calls => ?_, fun hheap name hname => ?_⟩
  · obtain ⟨rs, last, hrun, rfl, hlast⟩ := wp_never_iff.1
      (dir_reads_spec calls h hdir hinode (Nat.zero_le _))
    exact ⟨last, hrun, hlast⟩
  · have hspec : wp never (searchDirEntry d name) s _ :=
      search_open_dir_spec hheap h.readable hdir rfl hinode
    obtain ⟨r, last, hrun, hr, -⟩ := wp_never_iff.1 hspec
    have hper : dirEntrysPerSec s.part.sb = 21 := by simp [dirEntrysPerSec, h.entrySize]
    have hfirst : _ = (listing s inode).find? (·.name = name) :=
      lookup_blocks_eq_find hname 140 0 fun k _ hk hused =>
        ⟨h.dead k (by omega) hused, h.names k (by omega) hused⟩
    rw [lookupEntry, hper, hfirst] at hr
    subst hr
    refine ⟨_, last, hrun, ?_, fun e he => ?_⟩
    · simp [List.find?_isSome]
    · exact ⟨List.mem_of_find?_eq_some he, by simpa using List.find?_some he⟩

theorem one_file_listing : ListingOk oneFile (inodeVersion oneFile 0) where
  entrySize := rfl
  readable := one_file_tree.readable 0 rfl
  size := by decide +kernel
  dead := by
    intro k _ hused
    obtain rfl := root_only_blocks hused
    show ∀ j < 21, _ → ∀ i < 24, _
    decide +kernel
  names := by
    intro k _ hused
    obtain rfl := root_only_blocks hused
    show ∀ j < 21, _ → ∃ i < 16, _
    decide +kernel

/-- The root directory of `oneFile` is read four times, and the file `f` is looked up. -/
theorem listing_and_lookup_agree_one_file : ListingOk oneFile (inodeVersion oneFile 0) ∧
    (∃ last, dirReads rootDir 4 oneFile = .done
        (((listing oneFile (inodeVersion oneFile 0)).map fun e => some (e, e.name)).take 4 ++
          List.replicate (4 - (listing oneFile (inodeVersion oneFile 0)).length) none) last ∧
      last = { oneFile with dirs := last.dirs }) ∧
    ∃ r last, searchDirEntry rootDir [102] oneFile = .done r last ∧
      (r.isSome ↔ ∃ e ∈ listing oneFile (inodeVersion oneFile 0), e.name = [102]) ∧
      ∀ e, r = some e → e ∈ listing oneFile (inodeVersion oneFile 0) ∧ e.name = [102] := by
  have hagree := listing_and_lookup_agree one_file_listing
    (show oneFile.dirs.lookup rootDir = some ⟨2, 0⟩ from rfl) rfl
  exact ⟨one_file_listing, hagree.2.1 4, hagree.2.2 (fun _ _ => rfl) [102] (by decide)⟩

/-- Without memory `search_dir_entry` reports the file `f` as missing, although it is listed. -/
theorem lookup_without_memory : ∃ grant last,
    searchDirEntry rootDir [102] { oneFile with grant := grant } = .done none last ∧
    ∃ e ∈ listing { oneFile with grant := grant } (inodeVersion oneFile 0), e.name = [102] := by
  refine ⟨fun _ _ => false, _, rfl, ?_⟩
  show ∃ e ∈ listing oneFile (inodeVersion oneFile 0), e.name = [102]
  decide +kernel

end LosKernel
