import LosKernel.Fs.Cache
import LosKernel.Fs.Path
import Mathlib.Data.List.TakeWhile

/-!
# What a path search finds

`lookup s path` is the result of `search_file` as a function of the state: the components of the
path are looked up one after the other, each in the version of its directory that `inode_open`
would return. `search_file_spec` says that a search that returns gives this result, and which
handle it leaves open. An object is also reported as missing when memory is refused; the
specification keeps this case apart.
-/

namespace LosKernel

open Prog

variable {s cur : Kernel} {ok : Stop → Prop} {name word path : CStr} {dir : Option UInt32}
  {d : Ptr} {G : Option UInt32 → Prop}

/-! ## Components of a path -/

/-- The parts of a path between its slashes, empty ones included. -/
def splitSlash : CStr → List CStr
  | [] => [[]]
  | c :: cs =>
    if c = slash then [] :: splitSlash cs
    else
      match splitSlash cs with
      | [] => [[c]]
      | part :: parts => (c :: part) :: parts

/-- The components of a path. -/
def components (path : CStr) : List CStr := (splitSlash path).filter (· ≠ [])

theorem split_slash_ne_nil (path : CStr) : splitSlash path ≠ [] := by
  cases path with
  | nil => simp [splitSlash]
  | cons c cs =>
    rw [splitSlash]
    split
    · simp
    · split <;> simp

/-- A part without slashes in front of a path extends its first part. -/
theorem split_slash_append (hword : ∀ c ∈ word, c ≠ slash) (path : CStr) :
    ∃ part parts, splitSlash path = part :: parts ∧
      splitSlash (word ++ path) = (word ++ part) :: parts := by
  obtain ⟨part, parts, hpath⟩ := List.exists_cons_of_ne_nil (split_slash_ne_nil path)
  refine ⟨part, parts, hpath, ?_⟩
  induction word with
  | nil => exact hpath
  | cons c cs ih =>
    have hc : c ≠ slash := hword c (List.mem_cons_self ..)
    have hrec := ih fun d hd => hword d (List.mem_cons_of_mem c hd)
    simp only [List.cons_append, splitSlash, if_neg hc, hrec]

theorem components_slash (path : CStr) : components (slash :: path) = components path := by
  simp [components, splitSlash]

theorem components_drop_slashes (path : CStr) :
    components (path.dropWhile (· == slash)) = components path := by
  induction path with
  | nil => rfl
  | cons c cs ih =>
    by_cases hc : c = slash
    · subst hc
      rw [List.dropWhile_cons_of_pos (by simp), ih, components_slash]
    · rw [List.dropWhile_cons_of_neg (by simpa using hc)]

/-- A component is followed by the components of the rest of the path. -/
theorem components_append (hword : ∀ c ∈ word, c ≠ slash) (hne : word ≠ []) {rest : CStr}
    (hrest : rest = [] ∨ rest.head? = some slash) :
    components (word ++ rest) = word :: components rest := by
  obtain ⟨part, parts, hsplit, happend⟩ := split_slash_append hword rest
  have hpart : part = [] := by
    cases rest with
    | nil => simpa [splitSlash] using congrArg List.head? hsplit
    | cons c cs =>
      obtain rfl : c = slash := by simpa using hrest
      simpa [splitSlash] using congrArg List.head? hsplit
  subst hpart
  simp [components, hsplit, happend, hne]

/-- The components of what `path_parse` splits a path into. -/
def parsed (subPath : Option CStr) (name : CStr) : List CStr :=
  if name = [] then [] else name :: components (subPath.getD [])

theorem parsed_path_parse (path : CStr) :
    parsed (pathParse path).1 (pathParse path).2 = components path := by
  rw [← components_drop_slashes path]
  unfold parsed pathParse
  cases hp : path.dropWhile (· == slash) with
  | nil => simp [components, splitSlash]
  | cons c cs =>
    have hc : (c != slash) = true := by
      have := List.head_dropWhile_not (· == slash) (l := path) (by simp [hp])
      simpa [hp] using this
    have hword : ∀ d ∈ (c :: cs).takeWhile (· != slash), d ≠ slash := fun d hd => by
      simpa using List.mem_takeWhile_imp hd
    have hne : (c :: cs).takeWhile (· != slash) ≠ [] := by
      simpa using hc
    simp only [if_neg hne]
    -- the rest is empty or starts with the slash that ended the component
    cases hrest : (c :: cs).dropWhile (· != slash) with
    | nil =>
      have happend := components_append hword hne (.inl hrest)
      rw [List.takeWhile_append_dropWhile, hrest] at happend
      simpa using happend.symm
    | cons d ds =>
      have hd : d = slash := by
        have := List.head_dropWhile_not (· != slash) (l := c :: cs) (by simp [hrest])
        simpa [hrest] using this
      have hhead : ((c :: cs).dropWhile (· != slash)).head? = some slash := by
        rw [hrest, hd]
        rfl
      have happend := components_append hword hne (.inr hhead)
      rw [List.takeWhile_append_dropWhile, hrest] at happend
      simpa using happend.symm

/-! ## Looking a name up in a directory -/

/-- The entry called `name` in `count` blocks from `blockIdx` on, with `perSec` entries each. -/
def lookupBlocks (disk : Bytes) (perSec : Nat) (allBlocks : Nat → UInt32) (name : CStr) :
    Nat → Nat → Option DirEntry
  | 0, _ => none
  | count + 1, blockIdx =>
    if allBlocks blockIdx = 0 then lookupBlocks disk perSec allBlocks name count (blockIdx + 1)
    else
      match findName (sectorAt disk (allBlocks blockIdx).toNat) name perSec 0 with
      | some e => some e
      | none => lookupBlocks disk perSec allBlocks name count (blockIdx + 1)

/-- The entry called `name` in the directory with inode `inode`. -/
def lookupEntry (s : Kernel) (inode : INode) (name : CStr) : Option DirEntry :=
  lookupBlocks s.disk (dirEntrysPerSec s.part.sb) (blocksOf s.disk inode) name 140 0

/-- The blocks of an inode and its indirect table can be read. -/
structure BlocksReadable (disk : Bytes) (inode : INode) : Prop where
  table : inode.sector 12 ≠ 0 → (inode.sector 12).toNat ≤ maxLba
  blocks : ∀ k, blocksOf disk inode k ≠ 0 → (blocksOf disk inode k).toNat ≤ maxLba

/-- The loop of `search_dir_entry` over the blocks. -/
theorem search_blocks_spec {allBlocks : Nat → UInt32} {buf : Option Ptr}
    (hok : (∀ r, ok r) ∨ buf.isSome ∧ ∀ k, allBlocks k ≠ 0 → (allBlocks k).toNat ≤ maxLba)
    (count : Nat) :
    ∀ blockIdx, wp ok (searchBlocks allBlocks buf name count blockIdx) s fun r last =>
      r = lookupBlocks s.disk (dirEntrysPerSec s.part.sb) allBlocks name count blockIdx ∧
        last = s := by
  induction count with
  | zero =>
    intro blockIdx
    simp [searchBlocks, lookupBlocks]
  | succ count ih =>
    intro blockIdx
    rw [searchBlocks, lookupBlocks]
    split
    · exact ih (blockIdx + 1)
    · rename_i hblock
      simp only [wp_bind, wp_non_null, wp_ide_read, wp_state, sectorsInRange_one,
        decide_eq_false_iff_not]
      refine ⟨fun _ _ => ⟨fun _ => ?_, ?_⟩, ?_⟩
      · cases hfind : findName (sectorAt s.disk (allBlocks blockIdx).toNat) name
            (dirEntrysPerSec s.part.sb) 0 with
        | some e =>
          simp only [sectorAt] at hfind
          simp [hfind]
        | none =>
          simp only [sectorAt] at hfind
          simp only [hfind]
          exact ih (blockIdx + 1)
      · intro hrange
        rcases hok with hok | ⟨-, hblocks⟩
        · exact hok _
        · exact absurd (hblocks blockIdx hblock) hrange
      · intro hnone
        rcases hok with hok | ⟨hbuf, -⟩
        · exact hok _
        · simp [hnone] at hbuf

/-- `search_dir_entry` in a held directory. The memory for the block list may be refused, and the
entry is then reported as missing. -/
theorem search_dir_entry_spec
    (hok : (∀ r, ok r) ∨ HeapOk s ∧ RootOpen s ∧ BlocksReadable s.disk (dirVersion s dir))
    (h : DirHeld s dir d cur) :
    wp ok (searchDirEntry d name) cur fun r last => SameButHeap cur last ∧
      (r = lookupEntry s (dirVersion s dir) name ∨ r = none ∧ ¬HeapOk s) := by
  have hdisk := h.disk_eq
  have hpart := h.part_eq
  have hgrant := h.grant_eq
  unfold searchDirEntry
  rw [wp_bind, wp_sys_malloc]
  constructor
  · intro _
    simp only [wp_bind]
    have hserved : SameButHeap cur { cur with heap := cur.heap.served } :=
      ⟨_, Nat.le_succ _, rfl⟩
    refine wp_dir_inode (hok.imp_right fun hok => hok.2.1) (h.then_heap hserved) ?_
    intro cnt
    refine wp_all_blocks_of ?_ ?_
    · simp only [wp_sys_malloc]
      refine ⟨fun _ => ?_, fun hrefused => ?_⟩
      · refine wp_mono (search_blocks_spec ?_ 140 0) ?_
        · refine hok.imp_right fun hok => ⟨rfl, ?_⟩
          rw [hdisk]
          exact hok.2.2.blocks
        · rintro r last ⟨rfl, rfl⟩
          refine ⟨⟨_, ?_, rfl⟩, .inl ?_⟩
          · simp
            omega
          · rw [hdisk, hpart]
            rfl
      · rcases hok with hok | ⟨hheap, -, -⟩
        · refine wp_mono (search_blocks_spec (.inl hok) 140 0) ?_
          intro r last _
          simp [hok]
        · rw [hgrant] at hrefused
          simp [hheap _ _] at hrefused
    · intro htable hrange
      rcases hok with hok | ⟨-, -, hread⟩
      · exact hok _
      · exact absurd (hread.table htable) (Nat.not_le.mpr hrange)
  · intro hrefused
    refine ⟨⟨_, Nat.le_succ _, rfl⟩, .inr ⟨rfl, ?_⟩⟩
    intro hheap
    rw [hgrant] at hrefused
    simp [hheap _ _] at hrefused

/-! ## Looking a path up -/

/-- What a search finds: the inode, the part of the path that was walked, the directory left open
and the type. -/
structure Found where
  inodeNo : UInt32
  searchedPath : CStr
  parent : Option UInt32
  fileType : FileType

/-- Look the components up one after the other from the directory `dir` on. `parentNo` is the
directory that holds `dir`, and `last` the inode found last. -/
def lookupFrom (s : Kernel) : List CStr → CStr → Option UInt32 → UInt32 → UInt32 → Found
  | [], searched, _, parentNo, last => ⟨last, searched, some parentNo, .directory⟩
  | name :: names, searched, dir, parentNo, _ =>
    match lookupEntry s (dirVersion s dir) name with
    | none => ⟨noInode, searched ++ [slash] ++ name, dir, .unknown⟩
    | some e =>
      if e.fType = FileType.directory.code then
        lookupFrom s names (searched ++ [slash] ++ name) (some e.iNo) (dirVersion s dir).iNo
          e.iNo
      else if e.fType = FileType.regular.code then
        ⟨e.iNo, searched ++ [slash] ++ name, dir, .regular⟩
      else lookupFrom s names (searched ++ [slash] ++ name) dir parentNo e.iNo

/-- The result of `search_file` as a function of the state. -/
def lookup (s : Kernel) (path : CStr) : Found :=
  if isRootPath path then ⟨0, [], none, .directory⟩
  else lookupFrom s (components path) [] none 0 (s.junk s.heap.requests)

/-- A search returned what `found` describes and left its parent directory open. -/
structure FoundBy (s : Kernel) (found : Found) (r : UInt32 × PathSearchRecord) (last : Kernel) :
    Prop where
  inodeNo : r.1 = found.inodeNo
  searchedPath : r.2.searchedPath = found.searchedPath
  fileType : r.2.fileType = found.fileType
  held : DirHeld s found.parent r.2.parentDir last

/-- A search found `expected`, or reported a missing object because memory was refused. -/
def Searched (s : Kernel) (expected : Found) (r : UInt32 × PathSearchRecord) (last : Kernel) :
    Prop :=
  FoundBy s expected r last ∨
    ¬HeapOk s ∧ ∃ found, found.inodeNo = noInode ∧ found.fileType = .unknown ∧
      FoundBy s found r last

/-- Nothing can make a search stop in the directories in `G`: they can be read, and the directories
they name are in `G` again. -/
structure SearchSafe (s : Kernel) (G : Option UInt32 → Prop) : Prop where
  heap : HeapOk s
  table : TableLaidOut s.part
  root : RootOpen s
  blocks : ∀ dir, G dir → BlocksReadable s.disk (dirVersion s dir)
  number : ∀ dir, G dir → (dirVersion s dir).iNo.toNat < 4096
  child : ∀ dir name e, G dir → lookupEntry s (dirVersion s dir) name = some e →
    e.fType = FileType.directory.code → e.iNo.toNat < 4096 ∧ G (some e.iNo)

/-- The number of characters of a path made of the components. -/
def pathLength (names : List CStr) : Nat := (names.map fun name => name.length + 1).sum

theorem parsed_next (subPath : Option CStr) :
    parsed (parseNext subPath).1 (parseNext subPath).2 = components (subPath.getD []) := by
  cases subPath with
  | none => rfl
  | some p => exact parsed_path_parse p

/-- The component just split off fits where all of them do. -/
theorem parsed_name_short {subPath : Option CStr} {room : Nat}
    (h : ∀ c ∈ parsed subPath name, c.length ≤ room) : name.length ≤ room := by
  by_cases hname : name = []
  · simp [hname]
  · exact h name (by simp [parsed, hname])

theorem length_le_path_length (names : List CStr) : names.length ≤ pathLength names := by
  induction names with
  | nil => simp [pathLength]
  | cons name names ih =>
    simp only [pathLength, List.map_cons, List.sum_cons, List.length_cons] at ih ⊢
    omega

/-- The components take no more characters than the path they come from. -/
theorem path_length_components (path : CStr) : pathLength (components path) ≤ path.length + 1 := by
  have hsplit : pathLength (splitSlash path) = path.length + 1 := by
    induction path with
    | nil => rfl
    | cons c cs ih =>
      obtain ⟨part, parts, hcs⟩ := List.exists_cons_of_ne_nil (split_slash_ne_nil cs)
      by_cases hc : c = slash
      · simp only [pathLength, splitSlash, if_pos hc] at ih ⊢
        simp [ih]
        omega
      · simp only [pathLength, splitSlash, if_neg hc, hcs, List.map_cons, List.sum_cons,
          List.length_cons] at ih ⊢
        omega
  have hfilter : ∀ names : List CStr, pathLength (names.filter (· ≠ [])) ≤ pathLength names := by
    intro names
    induction names with
    | nil => simp [pathLength]
    | cons name names ih =>
      rw [List.filter_cons]
      split <;> simp only [pathLength, List.map_cons, List.sum_cons] at ih ⊢ <;> omega
  exact hsplit ▸ hfilter (splitSlash path)

theorem path_length_components_abs (h : path.head? = some slash) :
    pathLength (components path) ≤ path.length := by
  cases path with
  | nil => simp at h
  | cons c cs =>
    obtain rfl : c = slash := by simpa using h
    exact path_length_components cs

/-- What keeps a search from stopping at the remaining components. -/
structure StepSafe (s : Kernel) (G : Option UInt32 → Prop) (names : List CStr) (searched : CStr)
    (dir : Option UInt32) (parentNo : UInt32) (fuel : Nat) : Prop where
  safe : SearchSafe s G
  good : G dir
  parent : parentNo.toNat < 4096
  short : ∀ c ∈ names, c.length < 16
  room : searched.length + pathLength names < 128
  fuel : names.length < fuel

theorem StepSafe.next {names : List CStr} {searched : CStr} {dir' : Option UInt32}
    {parentNo parentNo' : UInt32} {fuel : Nat}
    (h : StepSafe s G (name :: names) searched dir parentNo (fuel + 1)) (hgood : G dir')
    (hparent : parentNo'.toNat < 4096) :
    StepSafe s G names (searched ++ [slash] ++ name) dir' parentNo' fuel where
  safe := h.safe
  good := hgood
  parent := hparent
  short := fun c hc => h.short c (List.mem_cons_of_mem name hc)
  room := by
    have := h.room
    simp only [pathLength, List.map_cons, List.sum_cons, List.length_append, List.length_cons,
      List.length_nil] at this ⊢
    omega
  fuel := by
    have := h.fuel
    simp only [List.length_cons] at this
    omega

/-- The step of a search that goes down into the directory `n`. -/
theorem dir_down_spec {n : UInt32} {Q : Ptr → Kernel → Prop} (hc : CacheOk s)
    (hok : (∀ r, ok r) ∨ HeapOk s ∧ TableLaidOut s.part ∧ n.toNat < 4096)
    (hheld : DirHeld s dir d cur)
    (hQ : ∀ child next, DirHeld s (some n) child next → Q child next) :
    wp ok (dirClose d) cur fun _ mid => wp ok (dirOpen n) mid Q := by
  refine wp_mono (dir_close_held hc hheld) ?_
  intro _ mid hsame
  have hmid : HeapOk mid = HeapOk s ∧ mid.part = s.part := by
    obtain ⟨heap, -, rfl⟩ := hsame
    exact ⟨rfl, rfl⟩
  refine wp_mono (dir_open_spec (by rw [hmid.1, hmid.2]; exact hok)) ?_
  intro child next hopened
  exact hQ child next (.opened (hopened.of_same_but_heap hsame))

/-- The loop of `search_file` follows `lookupFrom`. -/
theorem search_loop_spec (hc : CacheOk s) (fuel : Nat) :
    ∀ (subPath : Option CStr) (name searched : CStr) (d : Ptr)
    (dir : Option UInt32) (parentNo lastNo : UInt32) (cur : Kernel),
    DirHeld s dir d cur →
    ((∀ r, ok r) ∨ StepSafe s G (parsed subPath name) searched dir parentNo fuel) →
    wp ok (searchLoop 15 16 fuel subPath name searched d parentNo lastNo) cur
      (Searched s (lookupFrom s (parsed subPath name) searched dir parentNo lastNo)) := by
  induction fuel with
  | zero =>
    intro subPath name searched d dir parentNo lastNo cur hheld hok
    rcases hok with hok | hsafe
    · exact hok _
    · exact absurd hsafe.fuel (Nat.not_lt_zero _)
  | succ fuel ih =>
    intro subPath name searched d dir parentNo lastNo cur hheld hok
    unfold searchLoop
    by_cases hname : name = []
    · subst hname
      simp only [wp_bind, wp_access, if_true]
      refine ⟨fun _ => ?_, fun h => by simp at h⟩
      refine dir_down_spec hc ?_ hheld ?_
      · exact hok.imp_right fun h => ⟨h.safe.heap, h.safe.table, h.parent⟩
      · intro child next hchild
        exact .inl ⟨rfl, rfl, rfl, hchild⟩
    · have hparsed : parsed subPath name = name :: components (subPath.getD []) := by
        simp [parsed, hname]
      rw [hparsed] at hok ⊢
      have hshort : (∀ r, ok r) ∨ name.length < 16 ∧ (searched ++ [slash] ++ name).length < 128 :=
        hok.imp_right fun h => ⟨h.short name (List.mem_cons_self ..), by
          have := h.room
          simp only [pathLength, List.map_cons, List.sum_cons, List.length_append,
            List.length_cons, List.length_nil] at this ⊢
          omega⟩
      simp only [wp_bind, wp_access, wp_assert, if_neg hname, maxPathLen, decide_eq_false_iff_not]
      refine ⟨fun _ => ⟨fun _ => ⟨fun _ => ?_, ?_⟩, ?_⟩, ?_⟩
      rotate_left
      · intro h
        exact hshort.elim (fun hok => hok _) fun h' => absurd h'.2 (of_decide_eq_false h)
      · intro h
        refine hshort.elim (fun hok => hok _) fun h' => absurd h'.2 ?_
        simp only [List.length_append]
        omega
      · intro h
        exact hshort.elim (fun hok => hok _) fun h' => absurd h'.1 h
      refine wp_mono (search_dir_entry_spec ?_ hheld) ?_
      · exact hok.imp_right fun h => ⟨h.safe.heap, h.safe.root, h.safe.blocks dir h.good⟩
      rintro r mid ⟨hsame, hr⟩
      have hheld' := hheld.then_heap hsame
      cases r with
      | none =>
        rcases hr with hr | ⟨-, hheap⟩
        · refine .inl ?_
          rw [lookupFrom, ← hr]
          exact ⟨rfl, rfl, rfl, hheld'⟩
        · exact .inr ⟨hheap, ⟨noInode, searched ++ [slash] ++ name, dir, .unknown⟩, rfl, rfl,
            ⟨rfl, rfl, rfl, hheld'⟩⟩
      | some e =>
        have hentry : lookupEntry s (dirVersion s dir) name = some e := by
          rcases hr with hr | ⟨hr, -⟩
          · exact hr.symm
          · simp at hr
        simp only [lookupFrom, hentry, wp_ite]
        rw [← parsed_next subPath] at hok ⊢
        refine ⟨fun hdir => ?_, fun hdir => ⟨fun hreg => ?_, fun hreg => ?_⟩⟩
        · simp only [if_pos hdir, wp_bind]
          refine wp_dir_inode (hok.imp_right fun h => h.safe.root) hheld' ?_
          intro cnt
          refine dir_down_spec hc ?_ hheld' ?_
          · refine hok.imp_right fun h => ⟨h.safe.heap, h.safe.table, ?_⟩
            exact (h.safe.child dir name e h.good hentry hdir).1
          · intro child next hchild
            refine ih _ _ _ _ _ _ _ _ hchild (hok.imp_right fun h => ?_)
            exact h.next (h.safe.child dir name e h.good hentry hdir).2
              (h.safe.number dir h.good)
        · simp only [if_neg hdir, if_pos hreg, wp_bind, wp_access]
          refine ⟨fun _ => .inl ⟨rfl, rfl, rfl, hheld'⟩, fun hlong => ?_⟩
          refine hok.elim (fun hok => hok _) fun h => ?_
          have hnext := parsed_name_short fun c hc =>
            Nat.le_of_lt (h.short c (List.mem_cons_of_mem name hc))
          exact absurd hnext (of_decide_eq_false hlong)
        · simp only [if_neg hdir, if_neg hreg]
          refine ih _ _ _ _ _ _ _ _ hheld' (hok.imp_right fun h => ?_)
          exact h.next h.good h.parent

/-- `search_file` finds what `lookup` says. It does not stop for an absolute path that is not too
long and has no component that is too long. -/
theorem search_file_spec (hc : CacheOk s)
    (hok : (∀ r, ok r) ∨ SearchSafe s G ∧ G none ∧ path.head? = some slash ∧ path.length < 128 ∧
      ∀ c ∈ components path, c.length < 16) :
    wp ok (searchFile path) s (Searched s (lookup s path)) := by
  unfold searchFile searchFileIn lookup
  by_cases hroot : isRootPath path = true
  · simp only [hroot]
    exact .inl ⟨rfl, rfl, rfl, .root (SameButHeap.refl s)⟩
  · simp only [hroot, if_false, wp_bind, wp_assert, Bool.false_eq_true]
    refine ⟨fun _ => ?_, fun hassert => ?_⟩
    · have hspec := @search_loop_spec s ok G hc (path.length + 1)
        (pathParse path).1 (pathParse path).2 [] rootDir none 0 (s.junk s.heap.requests) s
        (.root (SameButHeap.refl s))
      rw [parsed_path_parse] at hspec
      refine hspec (hok.imp_right ?_)
      rintro ⟨hsafe, hgood, hhead, hlen, hshort⟩
      have hroom := path_length_components_abs hhead
      have hcount := length_le_path_length (components path)
      exact ⟨hsafe, hgood, by decide, hshort, by simpa using Nat.lt_of_le_of_lt hroom hlen,
        by omega⟩
    · refine hok.elim (fun hok => hok _) ?_
      rintro ⟨_, _, hhead, hlen, _⟩
      refine absurd ⟨hhead, ?_, hlen⟩ (of_decide_eq_false hassert)
      cases path with
      | nil => simp at hhead
      | cons c cs =>
        cases cs with
        | nil =>
          obtain rfl : c = slash := by simpa using hhead
          simp [isRootPath] at hroot
        | cons c' cs => simp

end LosKernel
