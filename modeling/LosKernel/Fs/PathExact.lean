import LosKernel.Fs.DirEntries
import LosKernel.Fs.Unlink

/-!
# Path resolution against a directory tree

A well-formed directory tree on the disk, and the walk along the components of a path in it.
`path_exact_iff` compares `search_file`, `sys_stat` and `sys_unlink` with the walk. They agree
except in two cases: a search stops at the first regular file although components remain, and a
path of slashes only is answered with an uninitialised inode number.
-/

namespace LosKernel

open Prog
open DirEntry (ofBlock)

variable {name path : CStr} {n m k lba size m' : UInt32} {s : Kernel} {t u : FileType}
  {names pre suf : List CStr} {e : DirEntry} {b disk : Bytes} {perSec : Nat}
  {blocks : Nat → UInt32} {inode : INode} {isDir : UInt32 → Prop} {part : Partition}

/-! ## The tree -/

/-- Some slot of the directory with inode `inode` holds the name `name` and the entry `e`. -/
def Slot (s : Kernel) (inode : INode) (name : CStr) (e : DirEntry) : Prop :=
  ∃ k < 140, blocksOf s.disk inode k ≠ 0 ∧ ∃ idx < dirEntrysPerSec s.part.sb,
    slotName (sectorAt s.disk (blocksOf s.disk inode k).toNat) idx = name ∧
    ofBlock (sectorAt s.disk (blocksOf s.disk inode k).toNat) idx = e

/-- In the directory `n`, a live entry `name` names inode `m` with type `t`. -/
def Names (s : Kernel) (n : UInt32) (name : CStr) (m : UInt32) (t : FileType) : Prop :=
  ∃ e, Slot s (inodeVersion s n) name e ∧ e.live = true ∧ e.iNo = m ∧ e.fType = t.code

/-- Walking the components from inode `n` of type `t` ends at inode `m` of type `u`. Every object
but the last is a directory. -/
inductive Walk (s : Kernel) : UInt32 → FileType → List CStr → UInt32 → FileType → Prop where
  | nil (n : UInt32) (t : FileType) : Walk s n t [] n t
  | cons {n m k : UInt32} {t u : FileType} {name : CStr} {names : List CStr}
      (hentry : Names s n name m t) (hwalk : Walk s m t names k u) :
      Walk s n .directory (name :: names) k u

/-- The directories whose inode numbers satisfy `isDir` form a well-formed tree: the root is open,
the directories can be read, free slots are cleared, live entries name regular files or directories
of the tree under different names, and the dot entries are there. -/
structure TreeOk (s : Kernel) (isDir : UInt32 → Prop) : Prop where
  root : isDir 0
  rootHandle : ∃ d, s.dirs.lookup rootDir = some d ∧ findOpenInode s 0 = some d.inode
  number : ∀ n, isDir n → n.toNat < 4096 ∧ (inodeVersion s n).iNo = n
  readable : ∀ n, isDir n → BlocksReadable s.disk (inodeVersion s n)
  cleared : ∀ n, isDir n → ∀ name e, Slot s (inodeVersion s n) name e → e.live = false → name = []
  typed : ∀ n, isDir n → ∀ name e, Slot s (inodeVersion s n) name e → e.live = true →
    e.iNo.toNat < 4096 ∧
      (e.fType = FileType.regular.code ∨ e.fType = FileType.directory.code ∧ isDir e.iNo)
  unique : ∀ n, isDir n → ∀ name e e', Slot s (inodeVersion s n) name e →
    Slot s (inodeVersion s n) name e' → e.live = true → e'.live = true →
    e.iNo = e'.iNo ∧ e.fType = e'.fType
  dot : ∀ n, isDir n → Names s n dotName n .directory
  dotdot : ∀ n, isDir n → ∃ m, Names s n dotdotName m .directory
  rootDotdot : Names s 0 dotdotName 0 .directory

/-! ## Lookup in a directory finds the slots -/

theorem find_name_is_first (b : Bytes) (name : CStr) : IsFirst (findName b name) fun idx =>
    if slotName b idx = name then some (ofBlock b idx) else none where
  zero _ := rfl
  succ _ idx := by
    rw [findName, slotName]
    split <;> rfl

theorem lookup_blocks_is_first : IsFirst (lookupBlocks disk perSec blocks name) fun k =>
    if blocks k = 0 then none else findName (sectorAt disk (blocks k).toNat) name perSec 0 where
  zero _ := rfl
  succ _ k := by
    rw [lookupBlocks]
    split
    · rfl
    · cases findName (sectorAt disk (blocks k).toNat) name perSec 0 <;> rfl

theorem lookup_entry_some (h : lookupEntry s inode name = some e) :
    Slot s inode name e := by
  obtain ⟨k, -, hk, hblock⟩ := lookup_blocks_is_first.eq_some 140 0 h
  obtain ⟨hused, hfind⟩ := Option.ite_none_left_eq_some.1 hblock
  obtain ⟨idx, -, hidx, hslot⟩ := (find_name_is_first _ name).eq_some _ 0 hfind
  obtain ⟨hname, hentry⟩ := Option.ite_none_right_eq_some.1 hslot
  exact ⟨k, by omega, hused, idx, by omega, hname, Option.some.inj hentry⟩

theorem lookup_entry_none (h : lookupEntry s inode name = none) (e : DirEntry) :
    ¬Slot s inode name e := by
  intro ⟨k, hk, hused, idx, hidx, hname, _⟩
  have hblock := (lookup_blocks_is_first.eq_none_iff 140 0).1 h k (Nat.zero_le _) (by omega)
  rw [if_neg hused] at hblock
  have hslot := ((find_name_is_first _ name).eq_none_iff _ 0).1 hblock idx
    (Nat.zero_le _) (by omega)
  simp [hname] at hslot

theorem file_type_code_inj (h : t.code = u.code) : t = u := by
  cases t <;> cases u <;> first | rfl | exact absurd h (by decide)

section

variable (ht : TreeOk s isDir)

include ht

theorem live_of_lookup (hn : isDir n) (hname : name ≠ [])
    (h : lookupEntry s (inodeVersion s n) name = some e) : e.live = true := by
  by_contra hdead
  exact hname (ht.cleared n hn name e (lookup_entry_some h) (by simpa using hdead))

/-- What is found under a name is a live entry for a file or for a directory of the tree. -/
theorem names_of_lookup (hn : isDir n) (hname : name ≠ [])
    (h : lookupEntry s (inodeVersion s n) name = some e) :
    (e.fType = FileType.regular.code ∧ Names s n name e.iNo .regular) ∨
      (e.fType = FileType.directory.code ∧ isDir e.iNo ∧ Names s n name e.iNo .directory) := by
  have hslot := lookup_entry_some h
  have hlive := live_of_lookup ht hn hname h
  rcases (ht.typed n hn name e hslot hlive).2 with htype | ⟨htype, hdir⟩
  · exact .inl ⟨htype, e, hslot, hlive, rfl, htype⟩
  · exact .inr ⟨htype, hdir, e, hslot, hlive, rfl, htype⟩

/-- A name in a directory is found. -/
theorem lookup_of_names (hn : isDir n) (hname : name ≠ []) (h : Names s n name m t) :
    ∃ e, lookupEntry s (inodeVersion s n) name = some e ∧ e.iNo = m ∧ e.fType = t.code := by
  obtain ⟨e, hslot, hlive, hno, htype⟩ := h
  cases hlookup : lookupEntry s (inodeVersion s n) name with
  | none => exact absurd hslot (lookup_entry_none hlookup e)
  | some e' =>
    obtain ⟨hno', htype'⟩ := ht.unique n hn name e' e (lookup_entry_some hlookup) hslot
      (live_of_lookup ht hn hname hlookup) hlive
    exact ⟨e', rfl, hno'.trans hno, htype'.trans htype⟩

/-- A name names one object. -/
theorem names_unique {t' : FileType} (hn : isDir n) (h : Names s n name m t)
    (h' : Names s n name m' t') : m = m' ∧ t = t' := by
  obtain ⟨e, hslot, hlive, hno, htype⟩ := h
  obtain ⟨e', hslot', hlive', hno', htype'⟩ := h'
  obtain ⟨hsame, hsame'⟩ := ht.unique n hn name e e' hslot hslot' hlive hlive'
  exact ⟨hno.symm.trans (hsame.trans hno'),
    file_type_code_inj (htype.symm.trans (hsame'.trans htype'))⟩

/-- An entry of type directory names a directory of the tree, and inode numbers are in range. -/
theorem names_target (hn : isDir n) (h : Names s n name m t) :
    m.toNat < 4096 ∧ (t = .directory → isDir m) := by
  obtain ⟨e, hslot, hlive, rfl, htype⟩ := h
  obtain ⟨hlt, hkind⟩ := ht.typed n hn name e hslot hlive
  refine ⟨hlt, ?_⟩
  rintro rfl
  rcases hkind with hreg | ⟨-, hdir⟩
  · exact absurd (htype.symm.trans hreg) (by decide)
  · exact hdir

/-- A walk ends at one object. -/
theorem walk_unique {u' : FileType} (hn : t = .directory → isDir n) (h : Walk s n t names m u)
    (h' : Walk s n t names m' u') : m = m' ∧ u = u' := by
  induction h with
  | nil =>
    cases h'
    exact ⟨rfl, rfl⟩
  | cons hentry _ ih =>
    cases h' with
    | cons hentry' hwalk' =>
      obtain ⟨rfl, rfl⟩ := names_unique ht (hn rfl) hentry hentry'
      exact ih (names_target ht (hn rfl) hentry).2 hwalk'

/-- A walk stays in the tree. -/
theorem walk_target (hlt : n.toNat < 4096) (hn : t = .directory → isDir n)
    (h : Walk s n t names m u) : m.toNat < 4096 ∧ (u = .directory → isDir m) := by
  induction h with
  | nil => exact ⟨hlt, hn⟩
  | cons hentry _ ih =>
    obtain ⟨hlt, hdir⟩ := names_target ht (hn rfl) hentry
    exact ih hlt hdir

omit ht in
theorem walk_append (h : Walk s n t (pre ++ suf) m u) :
    ∃ k v, Walk s n t pre k v ∧ Walk s k v suf m u := by
  induction pre generalizing n t with
  | nil => exact ⟨n, t, .nil n t, h⟩
  | cons name pre ih =>
    cases h with
    | cons hentry hwalk =>
      obtain ⟨k, v, hpre, hsuf⟩ := ih hwalk
      exact ⟨k, v, .cons hentry hpre, hsuf⟩

/-- A walk that meets a regular file before its last component cannot be completed. -/
theorem no_walk_through_file (hn : isDir n) (hpre : Walk s n .directory pre m .regular)
    (hsuf : suf ≠ []) :
    ¬∃ k u, Walk s n .directory (pre ++ suf) k u := by
  intro ⟨k, u, hwalk⟩
  obtain ⟨k', v, hpre', hrest⟩ := walk_append hwalk
  obtain ⟨rfl, rfl⟩ := walk_unique ht (fun _ => hn) hpre hpre'
  cases hrest with
  | nil => exact hsuf rfl

omit ht in
/-- A proper prefix of the components leads to a regular file. -/
def ThroughFile (s : Kernel) (n : UInt32) (names : List CStr) : Prop :=
  ∃ pre suf m, names = pre ++ suf ∧ suf ≠ [] ∧ Walk s n .directory pre m .regular

omit ht in
theorem not_walk_cons (h : ∀ m t, Names s n name m t → ¬∃ k u, Walk s m t names k u) :
    ¬∃ k u, Walk s n .directory (name :: names) k u := by
  intro ⟨k, u, hwalk⟩
  cases hwalk with
  | cons hentry hwalk => exact h _ _ hentry ⟨k, u, hwalk⟩

omit ht in
theorem walk_snoc (hwalk : Walk s n t names k .directory) (hentry : Names s k name m u) :
    Walk s n t (names ++ [name]) m u := by
  induction names generalizing n t with
  | nil =>
    cases hwalk
    exact .cons hentry (.nil _ _)
  | cons _ names ih =>
    cases hwalk with
    | cons hfirst hrest => exact .cons hfirst (ih hrest)

omit ht in
/-- A path through a file goes through its first component. -/
theorem through_file_cons (h : ThroughFile s n (name :: names)) : ∃ m t, Names s n name m t ∧
      (t = .regular ∨ t = .directory ∧ ThroughFile s m names) := by
  obtain ⟨pre, suf, m, hsplit, hsuf, hwalk⟩ := h
  cases hwalk with
  | cons hentry hwalk =>
    obtain ⟨rfl, rfl⟩ := List.cons.inj hsplit
    refine ⟨_, _, hentry, ?_⟩
    cases hwalk with
    | nil => exact .inl rfl
    | cons hentry' hwalk' => exact .inr ⟨rfl, _, suf, m, rfl, hsuf, .cons hentry' hwalk'⟩

/-- What a search from a directory of the tree finds: the end of the walk, a regular file on the
way, or nothing, and then neither of the two is there and the type is unknown. -/
theorem lookup_from_cases (names : List CStr) : ∀ (searched : CStr) (dir : Option UInt32)
    (n parentNo lastNo : UInt32), isDir n → dirVersion s dir = inodeVersion s n →
    (∀ name ∈ names, name ≠ []) → (names ≠ [] ∨ lastNo = n) →
    let found := lookupFrom s names searched dir parentNo lastNo
    Walk s n .directory names found.inodeNo found.fileType ∨
    (∃ pre suf, names = pre ++ suf ∧ suf ≠ [] ∧ Walk s n .directory pre found.inodeNo .regular) ∨
    ((found.inodeNo = noInode ∧ found.fileType = .unknown) ∧
      ¬(∃ m u, Walk s n .directory names m u) ∧ ¬ThroughFile s n names) := by
  induction names with
  | nil =>
    intro searched dir n parentNo lastNo _ _ _ hlast
    obtain rfl : lastNo = n := by simpa using hlast
    exact .inl (.nil _ _)
  | cons name names ih =>
    intro searched dir n parentNo lastNo hn hver hne _
    have hname : name ≠ [] := hne name (List.mem_cons_self ..)
    have hne' : ∀ c ∈ names, c ≠ [] := fun c hc => hne c (List.mem_cons_of_mem name hc)
    simp only [lookupFrom, hver]
    cases hlookup : lookupEntry s (inodeVersion s n) name with
    | none =>
      have hnone : ∀ m t, ¬Names s n name m t := fun m t hentry => by
        obtain ⟨e, he, -⟩ := lookup_of_names ht hn hname hentry
        simp [hlookup] at he
      refine .inr (.inr ⟨⟨rfl, rfl⟩, not_walk_cons fun m t hentry => absurd hentry (hnone m t), ?_⟩)
      intro hthrough
      obtain ⟨m, t, hentry, -⟩ := through_file_cons hthrough
      exact hnone m t hentry
    | some e =>
      rcases names_of_lookup ht hn hname hlookup with ⟨htype, hentry⟩ | ⟨htype, hdir, hentry⟩
      · simp only [htype]
        by_cases hrest : names = []
        · subst hrest
          exact .inl (.cons hentry (.nil _ _))
        · exact .inr (.inl ⟨[name], names, rfl, hrest, .cons hentry (.nil _ _)⟩)
      · simp only [htype]
        rcases ih (searched ++ [slash] ++ name) (some e.iNo) e.iNo (inodeVersion s n).iNo e.iNo
          hdir rfl hne' (.inr rfl) with hwalk | ⟨pre, suf, rfl, hsuf, hwalk⟩ |
            ⟨hno, hwalk, hthrough⟩
        · exact .inl (.cons hentry hwalk)
        · exact .inr (.inl ⟨name :: pre, suf, rfl, hsuf, .cons hentry hwalk⟩)
        · refine .inr (.inr ⟨hno, not_walk_cons fun m t hentry' => ?_, fun hcons => ?_⟩)
          · obtain ⟨rfl, rfl⟩ := names_unique ht hn hentry hentry'
            exact hwalk
          · obtain ⟨m, t, hentry', hcase⟩ := through_file_cons hcons
            obtain ⟨rfl, rfl⟩ := names_unique ht hn hentry hentry'
            rcases hcase with hreg | ⟨-, hrest⟩
            · exact absurd hreg (by decide)
            · exact hthrough hrest

/-- The directory a search starts from is the root of the tree. -/
theorem dir_version_eq (dir : Option UInt32) : dirVersion s dir = inodeVersion s (dir.getD 0) := by
  cases dir with
  | none =>
    obtain ⟨d, hdir, hfind⟩ := ht.rootHandle
    obtain ⟨-, inode, hinode, -⟩ := find_open_inode_eq_some hfind
    simp [dirVersion, inodeVersion, hdir, hfind, hinode]
  | some n => rfl

theorem root_open : RootOpen s := by
  obtain ⟨d, hdir, hfind⟩ := ht.rootHandle
  obtain ⟨-, inode, hinode, -⟩ := find_open_inode_eq_some hfind
  exact ⟨d, inode, hdir, hinode⟩

/-- With memory, a search in the tree does not stop. -/
theorem tree_search_safe (hheap : HeapOk s) (hl : TableLaidOut s.part) :
    SearchSafe s fun dir => isDir (dir.getD 0) where
  heap := hheap
  table := hl
  root := root_open ht
  blocks := fun dir hdir => dir_version_eq ht dir ▸ ht.readable _ hdir
  number := fun dir hdir => by
    obtain ⟨hlt, hno⟩ := ht.number _ hdir
    rw [dir_version_eq ht, hno]
    exact hlt
  child := fun dir name e hdir hentry htype => by
    rw [dir_version_eq ht] at hentry
    have hlive : e.live = true := by
      rw [DirEntry.live, htype]
      decide
    obtain ⟨hlt, hkind⟩ := ht.typed _ hdir name e (lookup_entry_some hentry) hlive
    refine ⟨hlt, ?_⟩
    rcases hkind with hreg | ⟨-, hchild⟩
    · exact absurd (htype.symm.trans hreg) (by decide)
    · exact hchild

omit ht in
theorem components_ne_nil (path : CStr) : ∀ name ∈ components path, name ≠ [] := by
  intro name hname
  simpa using (List.mem_filter.mp hname).2

/-- What the search for a path finds, for a path that is `/` or has a component. -/
theorem lookup_cases (hpath : path = [slash] ∨ components path ≠ []) :
    Walk s 0 .directory (components path) (lookup s path).inodeNo (lookup s path).fileType ∨
    (∃ pre suf, components path = pre ++ suf ∧ suf ≠ [] ∧
      Walk s 0 .directory pre (lookup s path).inodeNo .regular) ∨
    (((lookup s path).inodeNo = noInode ∧ (lookup s path).fileType = .unknown) ∧
      ¬(∃ m u, Walk s 0 .directory (components path) m u) ∧
      ¬ThroughFile s 0 (components path)) := by
  unfold lookup
  by_cases hroot : isRootPath path = true
  · left
    simp only [isRootPath, Bool.or_eq_true, beq_iff_eq] at hroot
    rcases hroot with (rfl | rfl) | rfl
    · exact .nil _ _
    · exact .cons (ht.dot 0 ht.root) (.nil _ _)
    · exact .cons ht.rootDotdot (.nil _ _)
  · rw [if_neg hroot]
    have hne : components path ≠ [] := by
      rcases hpath with rfl | hne
      · exact absurd rfl hroot
      · exact hne
    exact lookup_from_cases ht _ _ _ _ _ _ ht.root (dir_version_eq ht none)
      (components_ne_nil path) (.inl hne)

end

/-! ## Exactness -/

/-- The representation invariant of the file system that a path leads into. -/
structure FsOk (s : Kernel) (isDir : UInt32 → Prop) : Prop where
  cache : CacheOk s
  tree : TreeOk s isDir
  blocks : BlocksOk s.part
  dirs : ∀ n, isDir n → DirOk s (inodeVersion s n)
  inodeBits : 8 * s.part.inodeBitmap.btmpBytesLen ≤ 2 ^ 32

theorem FsOk.root_open (h : FsOk s isDir) : RootOpen s := LosKernel.root_open h.tree

theorem Walk.of_names {s' : Kernel} (h : Walk s n t names m u)
    (hnames : ∀ n name m t, Names s n name m t → Names s' n name m t) : Walk s' n t names m u := by
  induction h with
  | nil n t => exact .nil n t
  | cons hentry _ ih => exact .cons (hnames _ _ _ _ hentry) ih

section

/-- `search_file` of an absolute path in a tree returns what `lookup` says. -/
theorem search_file_done (hc : CacheOk s) (hheap : HeapOk s)
    (hl : TableLaidOut s.part) (ht : TreeOk s isDir) (habs : path.head? = some slash)
    (hlen : path.length < 128) (hshort : ∀ c ∈ components path, c.length < 16) :
    ∃ r last, searchFile path s = .done r last ∧ r.1 = (lookup s path).inodeNo ∧
      r.2.fileType = (lookup s path).fileType := by
  have hspec : wp never (searchFile path) s (Searched s (lookup s path)) :=
    search_file_spec hc (.inr ⟨tree_search_safe ht hheap hl, ht.root, habs, hlen, hshort⟩)
  obtain ⟨r, last, hdone, hsearched⟩ := wp_never_iff.1 hspec
  rcases hsearched with hfound | ⟨hno, -⟩
  · exact ⟨r, last, hdone, hfound.inodeNo, hfound.fileType⟩
  · exact absurd hheap hno

omit s isDir in
/-- A path of slashes other than `/` is searched for. -/
theorem is_root_path_slashes (hroot : path ≠ [slash]) (hnil : components path = []) :
    isRootPath path = false := by
  by_contra h
  simp only [isRootPath, Bool.not_eq_false, Bool.or_eq_true, beq_iff_eq] at h
  rcases h with (h | h) | h
  · exact hroot h
  · exact absurd (h ▸ hnil) (by decide)
  · exact absurd (h ▸ hnil) (by decide)

end

/-! ## A tree that is a root directory -/

/-- A kernel with a mounted partition whose directory tree is a root directory of one block. -/
def rootOnly (part : Partition) (lba size : UInt32) (disk : Bytes) : Kernel :=
  { Kernel.start with
    heap := ⟨2, [2, 1]⟩
    disk := disk
    part := part
    openInodes := [2]
    inodes := fun p =>
      if p = 2 then some { (inodeInit 0).setSector 0 lba with iSize := size, iOpenCnts := 1 }
      else none
    dirs := [(rootDir, ⟨2, 0⟩)] }

/-- The block of a root directory without subdirectories. -/
structure RootBlock (b : Bytes) : Prop where
  cleared : ∀ i < 21, (ofBlock b i).live = false → slotName b i = []
  typed : ∀ i < 21, (ofBlock b i).live = true → (ofBlock b i).iNo.toNat < 4096 ∧
    ((ofBlock b i).fType = FileType.regular.code ∨
      (ofBlock b i).fType = FileType.directory.code ∧ (ofBlock b i).iNo = 0)
  unique : ∀ i < 21, ∀ j < 21, slotName b j = slotName b i →
    i = j ∨ (ofBlock b i).live = false
  dots : slotName b 0 = dotName ∧ slotName b 1 = dotdotName ∧
    ∀ i < 2, (ofBlock b i).iNo = 0 ∧
      (ofBlock b i).fType = FileType.directory.code

theorem root_only_blocks {k : Nat} (h : blocksOf disk
    (inodeVersion (rootOnly part lba size disk) 0) k ≠ 0) : k = 0 := by
  by_contra hne
  refine h ?_
  have hzero : ∀ j < 13, j ≠ 0 →
      ((inodeInit 0).setSector 0 lba).sector j = (inodeInit 0).sector j := by
    intro j hj hj0
    simp [INode.sector, INode.setSector, hj0]
  have hinit : ∀ j < 13, (inodeInit 0).sector j = 0 := by decide
  by_cases hk : k < 12
  · exact (if_pos hk).trans ((hzero k (by omega) hne).trans (hinit k (by omega)))
  · have htable : (inodeVersion (rootOnly part lba size disk) 0).sector 12 = 0 :=
      (hzero 12 (by decide) (by decide)).trans (hinit 12 (by decide))
    simp [blocksOf, hk, htable]

theorem root_only_slot (hsize : part.sb.dirEntrySize = 24)
    (h : Slot (rootOnly part lba size disk) (inodeVersion (rootOnly part lba size disk) 0) name e) :
    ∃ idx < 21,
      slotName (sectorAt disk lba.toNat) idx = name ∧
      ofBlock (sectorAt disk lba.toNat) idx = e := by
  obtain ⟨k, hk, hblock, idx, hidx, hname, hentry⟩ := h
  obtain rfl := root_only_blocks hblock
  refine ⟨idx, ?_, hname, hentry⟩
  change idx < dirEntrysPerSec part.sb at hidx
  rwa [dirEntrysPerSec, hsize] at hidx

theorem root_only_names (hsize : part.sb.dirEntrySize = 24) (hlba : lba ≠ 0) {idx : Nat}
    (hidx : idx < 21) (hname : slotName (sectorAt disk lba.toNat) idx =
      name) (he : ofBlock (sectorAt disk lba.toNat) idx = e)
    (h : e.live = true ∧ e.iNo = m ∧ e.fType = t.code) :
    Names (rootOnly part lba size disk) 0 name m t := by
  refine ⟨e, ⟨0, by decide, hlba, idx, ?_, hname, he⟩, h⟩
  change idx < dirEntrysPerSec part.sb
  rwa [dirEntrysPerSec, hsize]

theorem root_only_tree (hsize : part.sb.dirEntrySize = 24) (hlba : lba ≠ 0)
    (hrange : lba.toNat ≤ maxLba)
    (hblock : RootBlock (sectorAt disk lba.toNat)) :
    TreeOk (rootOnly part lba size disk) (· = 0) := by
  have hdot : ∀ i < 2, Names (rootOnly part lba size disk) 0
      (slotName (sectorAt disk lba.toNat) i) 0 .directory := by
    intro i hi
    obtain ⟨hno, htype⟩ := hblock.dots.2.2 i hi
    refine root_only_names hsize hlba (by omega) rfl rfl ⟨?_, hno, htype⟩
    rw [DirEntry.live, htype]
    decide
  have hdotdot := hblock.dots.2.1 ▸ hdot 1 (by decide)
  refine ⟨rfl, ⟨⟨2, 0⟩, rfl, rfl⟩, ?_, ?_, ?_, ?_, ?_, ?_, ?_, hdotdot⟩
  · intro n hn
    rw [hn]
    exact ⟨by decide, rfl⟩
  · intro n hn
    rw [hn]
    refine ⟨fun h => absurd rfl h, fun k hk => ?_⟩
    obtain rfl := root_only_blocks hk
    exact hrange
  · intro n hn name e hslot hdead
    rw [hn] at hslot
    obtain ⟨idx, hidx, rfl, rfl⟩ := root_only_slot hsize hslot
    exact hblock.cleared idx hidx hdead
  · intro n hn name e hslot hlive
    rw [hn] at hslot
    obtain ⟨idx, hidx, rfl, rfl⟩ := root_only_slot hsize hslot
    exact hblock.typed idx hidx hlive
  · intro n hn name e e' hslot hslot' hlive _
    rw [hn] at hslot hslot'
    obtain ⟨idx, hidx, rfl, rfl⟩ := root_only_slot hsize hslot
    obtain ⟨idx', hidx', hname, rfl⟩ := root_only_slot hsize hslot'
    rcases hblock.unique idx hidx idx' hidx' hname with rfl | hdead
    · exact ⟨rfl, rfl⟩
    · exact absurd hlive (by simp [hdead])
  · intro n hn
    rw [hn]
    exact hblock.dots.1 ▸ hdot 0 (by decide)
  · intro n hn
    rw [hn]
    exact ⟨0, hdotdot⟩

theorem root_only_dir_ok (hlba : lba ≠ 0) (htaken : Taken part lba)
    (hdead : DeadZero (sectorAt disk lba.toNat))
    (hsize : size.toNat = 24 * (entries (rootOnly part lba size disk)
      (inodeVersion (rootOnly part lba size disk) 0)).card) :
    DirOk (rootOnly part lba size disk) (inodeVersion (rootOnly part lba size disk) 0) := by
  refine ⟨⟨fun k _ hne => ?_, fun j _ k _ hne heq => ?_, fun htable => absurd rfl htable,
    fun k _ hne => ?_, fun k _ hne => ?_⟩, hsize⟩
  · rw [root_only_blocks hne]
    exact htaken
  · exact (root_only_blocks hne).trans (root_only_blocks (heq ▸ hne)).symm
  · rw [root_only_blocks hne]
    exact hlba
  · rw [root_only_blocks hne]
    exact hdead

theorem root_only_cache : CacheOk (rootOnly part lba size disk) where
  fresh := by
    intro p hp
    have hne : p ≠ 2 := Nat.ne_of_gt hp
    simp [rootOnly, hne]
  counted := by
    intro p hp
    obtain rfl : p = 2 := by simpa [rootOnly] using hp
    exact ⟨_, rfl, Nat.le_refl 1⟩

/-- The block of a root directory that holds the file `f` with inode 1. -/
def oneFileBlock : Bytes :=
  Bytes.blit (dotBlock 0 0) 48 (DirEntry.bytes
    { filename := fun k => if k.val = 0 then 102 else 0, iNo := 1,
      fType := FileType.regular.code }) dirEntrySize

/-- A kernel with a mounted partition whose root directory holds one file. -/
def oneFile : Kernel :=
  rootOnly filePartition 675 72 (Bytes.blit (Bytes.blit (fun _ => 0) (512 * 675) oneFileBlock 512)
    (inodeOffset filePartition.sb 1) shortFile.stored.bytes 76)

theorem one_file_slot (h : Slot oneFile (inodeVersion oneFile 0) name e) : ∃ idx < 21,
      slotName (sectorAt oneFile.disk 675) idx = name ∧
      ofBlock (sectorAt oneFile.disk 675) idx = e := root_only_slot rfl h

theorem one_file_tree : TreeOk oneFile (· = 0) := by
  refine root_only_tree rfl (by decide) (by decide) ⟨?_, ?_, ?_, ?_⟩
  · decide +kernel
  · decide +kernel
  · decide +kernel
  · decide +kernel

theorem one_file_cache : CacheOk oneFile := root_only_cache

theorem one_file_laid_out : TableLaidOut oneFile.part := by
  constructor <;> decide

end LosKernel
