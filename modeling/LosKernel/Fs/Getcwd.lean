import LosKernel.Fs.Canonical

/-!
# The path of the working directory

`sys_getcwd` follows the `..` entries up to the root, looks in each parent for the entry with the
number of the child, and turns the list of names around. In a tree this gives the canonical path,
and a search for that path leads back to the directory.
-/

namespace LosKernel

open Prog
open DirEntry (ofBlock)

variable {s cur : Kernel} {c n m p j d : UInt32} {name path : CStr} {names : List CStr}
  {blocks : Nat → UInt32} {e : DirEntry} {isDir : UInt32 → Prop}

/-! ## The tree that is climbed -/

/-- No component is a dot. -/
def NoDots (names : List CStr) : Prop := ∀ name ∈ names, name ≠ dotName ∧ name ≠ dotdotName

/-- `names` are the components of the canonical path of the directory `d`. -/
def Canonical (s : Kernel) (names : List CStr) (d : UInt32) : Prop :=
  NoDots names ∧ Walk s 0 .directory names d .directory

/-- A tree of directories: every directory has a canonical path, of less than 128 characters, and
no walk along names leads from a directory back to it. The entry `..` is the second one of a
directory, free slots are zero, and a directory has one name in its parent. -/
structure ClimbOk (s : Kernel) (isDir : UInt32 → Prop) : Prop extends ParentsOk s isDir where
  canonical : ∀ d, isDir d → ∃ names, Canonical s names d ∧ pathLength names < 128
  acyclic : ∀ n names, isDir n → names ≠ [] → NoDots names → ¬Walk s n .directory names n .directory
  named : ∀ n, isDir n → ∀ name m t, Names s n name m t → IsName name ∧ name.length < 16
  zeroed : ∀ n, isDir n → ∀ name e, Slot s (inodeVersion s n) name e → e.live = false → e.iNo = 0
  once : ∀ n, isDir n → ∀ name name' m t, Names s n name m .directory → Names s n name' m t →
    name ≠ dotName → name ≠ dotdotName → name' ≠ dotName → name' ≠ dotdotName → name = name'
  perSec : 1 < dirEntrysPerSec s.part.sb
  second : ∀ n, isDir n → s.part.sb.dataStartLba ≤ (inodeVersion s n).sector 0 ∧
    (inodeVersion s n).sector 0 ≠ 0 ∧
    slotName (sectorAt s.disk ((inodeVersion s n).sector 0).toNat) 1 = dotdotName

/-- The tree does not depend on the heap, the tasks and the uninitialised locals. -/
theorem ClimbOk.with_heap_and_tasks (h : ClimbOk s isDir) (heap : Heap)
    (tasks : Ptr → Option Task) (junk : Nat → UInt32) :
    ClimbOk { s with heap := heap, tasks := tasks, junk := junk } isDir where
  toTreeOk := ⟨h.root, h.rootHandle, h.number, h.readable, h.cleared, h.typed, h.unique, h.dot,
    h.dotdot, h.rootDotdot⟩
  parent := h.parent
  canonical := by
    intro d hd
    obtain ⟨names, ⟨hdots, hwalk⟩, hlen⟩ := h.canonical d hd
    exact ⟨names, ⟨hdots, hwalk.of_names fun _ _ _ _ hentry => hentry⟩, hlen⟩
  acyclic := fun n names hn hne hdots hwalk =>
    h.acyclic n names hn hne hdots (hwalk.of_names fun _ _ _ _ hentry => hentry)
  named := h.named
  zeroed := h.zeroed
  once := h.once
  perSec := h.perSec
  second := h.second

/-! ## Finding the parent and the name -/

theorem find_child_is_first (b : Bytes) (c : UInt32) : IsFirst (findChild b c) fun idx =>
    if (ofBlock b idx).iNo = c then some (slotName b idx) else none where
  zero _ := rfl
  succ _ idx := by
    rw [findChild, slotName]
    split <;> rfl

/-- The answer `r` of a search for the number `c` in the blocks from `start` to `stop`: the name of
a slot with that number, or -1 if there is none. -/
structure ChildFound (s : Kernel) (blocks : Nat → UInt32) (c : UInt32) (start stop : Nat)
    (r : Option CStr) : Prop where
  found : ∀ name, r = some name → ∃ k < stop, blocks k ≠ 0 ∧
    ∃ idx < dirEntrysPerSec s.part.sb,
      (ofBlock (sectorAt s.disk (blocks k).toNat) idx).iNo = c ∧
      slotName (sectorAt s.disk (blocks k).toNat) idx = name
  missing : r = none → ∀ k, start ≤ k → k < stop → blocks k ≠ 0 →
    ∀ idx < dirEntrysPerSec s.part.sb,
      (ofBlock (sectorAt s.disk (blocks k).toNat) idx).iNo ≠ c

theorem ChildFound.cons {start stop : Nat} {r : Option CStr}
    (h : ChildFound s blocks c (start + 1) stop r)
    (hfirst : blocks start ≠ 0 → ∀ idx < dirEntrysPerSec s.part.sb,
      (ofBlock (sectorAt s.disk (blocks start).toNat) idx).iNo ≠ c) :
    ChildFound s blocks c start stop r where
  found := h.found
  missing := by
    intro hr k hle hlt hblock
    rcases Nat.eq_or_lt_of_le hle with rfl | hle
    · exact hfirst hblock
    · exact h.missing hr k hle hlt hblock

/-- The search for the entry of a child, block by block. -/
theorem find_child_blocks_spec (hread : ∀ k, blocks k ≠ 0 → (blocks k).toNat ≤ maxLba)
    (count : Nat) : ∀ start,
    wp never (findChildBlocks blocks c count start) s fun r last =>
      last = s ∧ ChildFound s blocks c start (start + count) r := by
  induction count with
  | zero => exact fun start => ⟨rfl, ⟨fun _ h => (nomatch h), fun _ k _ _ => by omega⟩⟩
  | succ count ih =>
    intro start
    have hstop : start + 1 + count = start + (count + 1) := by omega
    rw [findChildBlocks]
    by_cases hblock : blocks start = 0
    · rw [if_pos hblock]
      refine wp_mono (ih (start + 1)) fun r last h => ⟨h.1, ?_⟩
      exact hstop ▸ h.2.cons fun hne => absurd hblock hne
    · rw [if_neg hblock, wp_bind]
      refine wp_read_sector (.inr (hread start hblock)) ?_
      rw [wp_bind, wp_state]
      have hsearch := find_child_is_first (sectorAt s.disk (blocks start).toNat) c
      cases hfind : findChild (sectorAt s.disk (blocks start).toNat) c
          (dirEntrysPerSec s.part.sb) 0 with
      | none =>
        refine wp_mono (ih (start + 1)) fun r last h => ⟨h.1, ?_⟩
        refine hstop ▸ h.2.cons fun _ idx hidx => ?_
        simpa using (hsearch.eq_none_iff _ 0).1 hfind idx (Nat.zero_le _) (by omega)
      | some name =>
        obtain ⟨idx, -, hidx, hslot⟩ := hsearch.eq_some _ 0 hfind
        obtain ⟨hno, hname⟩ := Option.ite_none_right_eq_some.1 hslot
        refine ⟨rfl, ⟨fun name' hname' => ?_, fun h => nomatch h⟩⟩
        exact ⟨start, by omega, hblock, idx, by omega, hno, Option.some.inj (hname.trans hname')⟩

theorem lt_block_cnt {disk : Bytes} {inode : INode} {k : Nat} (h : blocksOf disk inode k ≠ 0) :
    k < if inode.sector 12 ≠ 0 then 140 else 12 := by
  by_contra hge
  refine h ?_
  unfold blocksOf
  split at hge
  · rw [if_neg (by omega), if_neg fun hboth => hge hboth.2]
  · rename_i htable
    rw [if_neg hge, if_neg fun hboth => htable hboth.1]

section

variable (ht : ClimbOk s isDir)

include ht

/-- An entry with a name is live, and it is the only one with that name. -/
theorem slot_names (hn : isDir n) (hslot : Slot s (inodeVersion s n) name e)
    (hentry : Names s n name m .directory) : e.iNo = m ∧ e.fType = FileType.directory.code := by
  obtain ⟨⟨hne, -⟩, -⟩ := ht.named n hn name m _ hentry
  have hlive : e.live = true := by
    by_contra hdead
    exact hne (ht.cleared n hn name e hslot (by simpa using hdead))
  obtain ⟨e', hslot', hlive', hno, htype⟩ := hentry
  obtain ⟨hsame, hsame'⟩ := ht.unique n hn name e e' hslot hslot' hlive hlive'
  exact ⟨hsame.trans hno, hsame'.trans htype⟩

/-- `get_parent_dir_inode_nr` returns what the entry `..` names. -/
theorem get_parent_dir_inode_nr_spec (hc : CacheOk s) (hheap : HeapOk s)
    (hl : TableLaidOut s.part) (hcur : SameButHeap s cur) (hn : isDir n)
    (hp : Names s n dotdotName p .directory) :
    wp never (getParentDirInodeNr n) cur fun r last => r = p ∧ SameButHeap s last := by
  obtain ⟨hlba, hblock, hsecond⟩ := ht.second n hn
  have hread := (ht.readable n hn).blocks 0 hblock
  have hslot : Slot s (inodeVersion s n) dotdotName
      (ofBlock (sectorAt s.disk ((inodeVersion s n).sector 0).toNat) 1) :=
    ⟨0, by decide, hblock, 1, ht.perSec, hsecond, rfl⟩
  obtain ⟨hno, htype⟩ := slot_names ht hn hslot hp
  have hsmall : (ofBlock (sectorAt s.disk ((inodeVersion s n).sector 0).toNat) 1).iNo <
      4096 := by
    rw [hno]
    exact (names_target ht.toTreeOk hn hp).1
  have hok : HeapOk cur ∧ TableLaidOut cur.part := by
    obtain ⟨heap, -, rfl⟩ := hcur
    exact ⟨hheap, hl⟩
  refine wp_seq (inode_open_spec (.inr ⟨hok.1, hok.2, (ht.number n hn).1⟩)) ?_
  intro q next hopen
  have hopen := hopen.of_same_but_heap hcur
  obtain ⟨cnt, hinode⟩ := hopen.version
  have hpart : next.part = s.part := by rw [hopen.frame]
  rw [wp_bind, wp_deref_inode]
  refine ⟨fun inode hinode' => ?_, fun hnone => by simp [hinode] at hnone⟩
  obtain rfl := Option.some.inj (hinode.symm.trans hinode')
  rw [wp_bind, wp_state, wp_bind, wp_assert, hpart]
  refine ⟨fun _ => ?_, fun h => absurd hlba (of_decide_eq_false h)⟩
  refine wp_seq (inode_close_opened hc hopen) ?_
  intro _ last hlast
  have hdisk : last.disk = s.disk := by
    obtain ⟨heap, -, rfl⟩ := hlast
    rfl
  rw [wp_bind]
  refine wp_read_sector (.inr hread) ?_
  rw [hdisk, wp_bind, wp_assert]
  exact ⟨fun _ => ⟨hno, hlast⟩, fun h => absurd ⟨hsmall, htype⟩ (of_decide_eq_false h)⟩

/-- The directory that names a directory under a proper name is the one its `..` entry names. -/
theorem parent_of_canonical (hn : isDir n) (hne : n ≠ 0) (hp : Names s n dotdotName p .directory) :
    isDir p ∧ ∃ name, name ≠ dotName ∧ name ≠ dotdotName ∧ Names s p name n .directory := by
  obtain ⟨names, ⟨hdots, hwalk⟩, -⟩ := ht.canonical n hn
  rcases List.eq_nil_or_concat names with rfl | ⟨init, name, rfl⟩
  · cases hwalk
    exact absurd rfl hne
  · rw [List.concat_eq_append] at hdots hwalk
    obtain ⟨j, hj, hentry⟩ := walk_last hwalk
    obtain ⟨hdot, hdotdot⟩ := hdots name (by simp)
    have hjdir := walk_is_dir ht.toTreeOk ht.root hj
    have hparent := ht.parent j hjdir name n hentry hdot hdotdot
    obtain ⟨rfl, -⟩ := names_unique ht.toTreeOk hn hp hparent
    exact ⟨hjdir, name, hdot, hdotdot, hentry⟩

/-- A slot of a directory with the number of one of its subdirectories has the name of the
subdirectory. -/
theorem slot_of_child {name' : CStr} (hj : isDir j) (hc : c ≠ 0)
    (hentry : Names s j name c .directory) (hdot : name ≠ dotName) (hdotdot : name ≠ dotdotName)
    (hslot : Slot s (inodeVersion s j) name' e) (hno : e.iNo = c) : name' = name := by
  have hcdir : isDir c := (names_target ht.toTreeOk hj hentry).2 rfl
  have hlive : e.live = true := by
    by_contra hdead
    exact hc (hno.symm.trans (ht.zeroed j hj name' e hslot (by simpa using hdead)))
  -- neither dot of the directory names a subdirectory: that would be a cycle
  have hdot' : name' ≠ dotName := by
    intro h
    obtain ⟨hself, -⟩ := slot_names ht hj (h ▸ hslot) (ht.dot j hj)
    have hcycle : Names s j name j .directory := by rwa [← hno, hself] at hentry
    refine ht.acyclic j [name] hj (by simp) ?_ (.cons hcycle (.nil _ _))
    exact fun n hmem => List.mem_singleton.1 hmem ▸ ⟨hdot, hdotdot⟩
  have hdotdot' : name' ≠ dotdotName := by
    intro h
    obtain ⟨p, hp⟩ := ht.dotdot j hj
    obtain ⟨hself, -⟩ := slot_names ht hj (h ▸ hslot) hp
    obtain rfl : p = c := hself.symm.trans hno
    by_cases hroot : j = 0
    · subst hroot
      exact hc (names_unique ht.toTreeOk hj hp ht.rootDotdot).1
    · obtain ⟨-, up, hup, hup', hentry'⟩ := parent_of_canonical ht hj hroot hp
      refine ht.acyclic p [up, name] hcdir (by simp) ?_ (.cons hentry' (.cons hentry (.nil _ _)))
      intro n hmem
      simp only [List.mem_cons, List.not_mem_nil, or_false] at hmem
      rcases hmem with rfl | rfl
      · exact ⟨hup, hup'⟩
      · exact ⟨hdot, hdotdot⟩
  obtain ⟨t, ht'⟩ : ∃ t, Names s j name' c t := by
    rcases (ht.typed j hj name' e hslot hlive).2 with htype | ⟨htype, -⟩
    · exact ⟨.regular, e, hslot, hlive, hno, htype⟩
    · exact ⟨.directory, e, hslot, hlive, hno, htype⟩
  exact (ht.once j hj name name' c t hentry ht' hdot hdotdot hdot' hdotdot').symm

/-- `get_child_dir_name` returns the name of the subdirectory. -/
theorem get_child_dir_name_spec (hc : CacheOk s) (hheap : HeapOk s) (hl : TableLaidOut s.part)
    (hcur : SameButHeap s cur) (hj : isDir j) (hne : c ≠ 0) (hentry : Names s j name c .directory)
    (hdot : name ≠ dotName) (hdotdot : name ≠ dotdotName) :
    wp never (getChildDirName j c) cur fun r last => r = some name ∧ SameButHeap s last := by
  have hread := ht.readable j hj
  have hok : HeapOk cur ∧ TableLaidOut cur.part := by
    obtain ⟨heap, -, rfl⟩ := hcur
    exact ⟨hheap, hl⟩
  refine wp_seq (inode_open_spec (.inr ⟨hok.1, hok.2, (ht.number j hj).1⟩)) ?_
  intro q next hopen
  have hopen := hopen.of_same_but_heap hcur
  obtain ⟨cnt, hinode⟩ := hopen.version
  have hnext : next.disk = s.disk := by rw [hopen.frame]
  rw [wp_bind, wp_deref_inode]
  refine ⟨fun inode hinode' => ?_, fun hnone => by simp [hinode] at hnone⟩
  obtain rfl := Option.some.inj (hinode.symm.trans hinode')
  rw [wp_bind]
  refine wp_all_blocks_of ?_ fun htable hlarge => absurd (hread.table htable) (Nat.not_le.2 hlarge)
  rw [wp_bind, hnext]
  refine wp_mono (inode_close_opened hc hopen) ?_
  intro _ last hlast
  have hlike : last.disk = s.disk ∧ last.part = s.part := by
    obtain ⟨heap, -, rfl⟩ := hlast
    exact ⟨rfl, rfl⟩
  refine wp_mono (find_child_blocks_spec hread.blocks _ 0) ?_
  intro r last' ⟨hlast', hfound, hmissing⟩
  rw [hlast']
  rw [hlike.1, hlike.2] at hfound hmissing
  refine ⟨?_, hlast⟩
  cases r with
  | some name' =>
    obtain ⟨k, hk, hblock, idx, hidx, hno, hname⟩ := hfound name' rfl
    have hslot : Slot s (inodeVersion s j) name' _ :=
      ⟨k, hk.trans_le ?_, hblock, idx, hidx, hname, rfl⟩
    · rw [slot_of_child ht hj hne hentry hdot hdotdot hslot hno]
    · split <;> decide
  | none =>
    -- the subdirectory has a slot in a block that was searched
    obtain ⟨e, ⟨k, hk, hblock, idx, hidx, -, he⟩, -, hno, -⟩ := hentry
    refine absurd (he ▸ hno) (hmissing rfl k (Nat.zero_le k) ?_ hblock idx hidx)
    rw [Nat.zero_add]
    exact lt_block_cnt hblock

/-- `names` reversed, as `sys_getcwd` collects it. -/
def climbed (names : List CStr) : CStr := names.reverse.flatMap (slash :: ·)

/-- Climbing from a directory collects the names of its canonical path from the last one on. -/
theorem climb_spec (hc : CacheOk s) (hheap : HeapOk s) (hl : TableLaidOut s.part)
    (names : List CStr) : ∀ {cur : Kernel} {d : UInt32} {path : CStr}
    {fuel : Nat}, SameButHeap s cur → Canonical s names d → names.length < fuel →
    path.length + pathLength names < 128 →
    wp never (climb fuel d path) cur fun r last =>
      r = some (path ++ climbed names) ∧ SameButHeap s last := by
  induction names using List.reverseRecOn with
  | nil =>
    rintro cur d path fuel hcur ⟨_, hwalk⟩ hfuel _
    cases hwalk
    cases fuel with
    | zero => exact absurd hfuel (Nat.not_lt_zero _)
    | succ fuel =>
      exact ⟨by simp [climbed], hcur⟩
  | append_singleton names name ih =>
    rintro cur d path fuel hcur ⟨hdots, hwalk⟩ hfuel hroom
    obtain ⟨j, hj, hentry⟩ := walk_last hwalk
    obtain ⟨hdot, hdotdot⟩ := hdots name (by simp)
    have hjdir := walk_is_dir ht.toTreeOk ht.root hj
    have hddir := (names_target ht.toTreeOk hjdir hentry).2 rfl
    have hparent := ht.parent j hjdir name d hentry hdot hdotdot
    have hd : d ≠ 0 := by
      intro h
      subst h
      exact ht.acyclic 0 _ ht.root (by simp) hdots hwalk
    rw [path_length_append, path_length_cons] at hroom
    have hlen : (path ++ [slash] ++ name).length = path.length + (name.length + 1) := by
      simp
    cases fuel with
    | zero => exact absurd hfuel (Nat.not_lt_zero _)
    | succ fuel =>
      rw [climb, if_neg hd]
      refine wp_seq
        (get_parent_dir_inode_nr_spec ht hc hheap hl hcur hddir hparent) ?_
      rintro r mid ⟨hr, hmid⟩
      rw [hr]
      refine wp_seq
        (get_child_dir_name_spec ht hc hheap hl hmid hjdir hd hentry hdot hdotdot) ?_
      rintro r' mid' ⟨hr', hmid'⟩
      rw [hr', wp_bind, wp_access]
      refine ⟨fun _ => ?_, fun h => absurd ?_ (of_decide_eq_false h)⟩
      · have hnames : Canonical s names j :=
          ⟨fun n hn => hdots n (List.mem_append_left _ hn), hj⟩
        refine wp_mono (ih hmid' hnames ?_ ?_) ?_
        · rw [List.length_append, List.length_singleton] at hfuel
          omega
        · omega
        · rintro r'' last ⟨hr'', hlast⟩
          refine ⟨?_, hlast⟩
          simp [hr'', climbed]
      · show (path ++ [slash] ++ name).length < 128
        omega

end

/-- The last loop of `sys_getcwd` turns the names around. -/
theorem reverse_components_climbed (h : ∀ n ∈ names, IsName n) :
    ∀ {fuel : Nat} {buf : CStr}, names.length < fuel →
      reverseComponents fuel (climbed names) buf = buf ++ names.flatMap (slash :: ·) := by
  induction names with
  | nil =>
    intro fuel buf hfuel
    cases fuel with
    | zero => exact absurd hfuel (Nat.not_lt_zero _)
    | succ fuel => simp [reverseComponents, climbed]
  | cons name names ih =>
    intro fuel buf hfuel
    obtain ⟨⟨-, hname⟩, hrest⟩ := List.forall_mem_cons.1 h
    have hclimbed : climbed (name :: names) = climbed names ++ slash :: name := by
      simp [climbed]
    rw [List.length_cons] at hfuel
    cases fuel with
    | zero => exact absurd hfuel (Nat.not_lt_zero _)
    | succ fuel =>
      rw [hclimbed, reverseComponents, front_append _ hname,
        base_name_append _ hname, ih hrest (by omega)]
      simp

/-- The names of a canonical path can stand in a path. -/
theorem canonical_names (ht : ClimbOk s isDir) (names : List CStr) : ∀ {d : UInt32},
    Walk s 0 .directory names d .directory → ∀ n ∈ names, IsName n ∧ n.length < 16 := by
  induction names using List.reverseRecOn with
  | nil => exact fun _ n hn => absurd hn (by simp)
  | append_singleton names name ih =>
    intro d hwalk n hn
    obtain ⟨j, hj, hentry⟩ := walk_last hwalk
    rcases List.mem_append.1 hn with hn | hn
    · exact ih hj n hn
    · obtain rfl := List.mem_singleton.1 hn
      exact ht.named j (walk_is_dir ht.toTreeOk ht.root hj) n d _ hentry

/-- `sys_getcwd` returns the canonical path of the working directory. -/
theorem sys_getcwd_spec (ht : ClimbOk s isDir) (hc : CacheOk s) (hheap : HeapOk s)
    (hl : TableLaidOut s.part) {task : Task} (htask : s.tasks s.cur = some task)
    (hnames : Canonical s names task.cwdInodeNr) (hlen : pathLength names < 128) :
    wp never (sysGetcwd 128) s fun r last =>
      r = some (absPath names) ∧ SameButHeap s last := by
  have hcount := length_le_path_length names
  have hdir := walk_is_dir ht.toTreeOk ht.root hnames.2
  unfold sysGetcwd
  rw [wp_bind, wp_sys_malloc]
  refine ⟨fun _ => ?_, fun hrefused => by simp [hheap _ _] at hrefused⟩
  rw [wp_bind, wp_running_thread]
  refine ⟨fun task' htask' => ?_, fun hnone => absurd (htask.symm.trans hnone) (by simp)⟩
  obtain rfl : task = task' := Option.some.inj (htask.symm.trans htask')
  rw [wp_bind, wp_assert]
  refine ⟨fun _ => ?_, fun h => absurd (ht.number _ hdir).1 (of_decide_eq_false h)⟩
  have hserved : SameButHeap s { s with heap := s.heap.served } := ⟨_, Nat.le_succ _, rfl⟩
  by_cases hroot : task.cwdInodeNr = 0
  · -- the root has no canonical path but `/`
    obtain rfl : names = [] := by
      by_contra hne
      exact ht.acyclic 0 names ht.root hne hnames.1 (hroot ▸ hnames.2)
    rw [if_pos hroot]
    exact ⟨rfl, hserved⟩
  · have hne : names ≠ [] := by
      intro hnil
      subst hnil
      exact hroot (walk_unique ht.toTreeOk (fun _ => ht.root) hnames.2 (.nil _ _)).1
    rw [if_neg hroot]
    refine wp_seq (climb_spec ht hc hheap hl names hserved hnames
      (show names.length < 128 by omega) (by simpa using hlen)) ?_
    intro r mid ⟨hr, hmid⟩
    rw [hr, List.nil_append, wp_bind, wp_assert]
    have hclimbed : (climbed names).length = pathLength names := by
      simp [climbed, pathLength]
    refine ⟨fun _ => ?_, fun h => absurd ?_ (of_decide_eq_false h)⟩
    · refine ⟨?_, hmid.trans ⟨⟨mid.heap.requests, mid.heap.live.erase _⟩, Nat.le_refl _, rfl⟩⟩
      rw [reverse_components_climbed (fun n hn => (canonical_names ht names hnames.2 n hn).1)
        (by omega), absPath, if_neg hne]
      rfl
    · show (climbed names).length ≤ 128
      omega

/-! ## Changing the directory -/

/-- A path names a directory. -/
def NamesDir (s : Kernel) (path : CStr) : Prop :=
  (lookup s path).inodeNo ≠ noInode ∧ (lookup s path).fileType = .directory

instance (s : Kernel) (path : CStr) : Decidable (NamesDir s path) :=
  inferInstanceAs (Decidable (_ ∧ _))

/-- `sys_chdir` fails and leaves the handles alone, or the path names a directory and that is the
working directory now. -/
theorem sys_chdir_spec {ok : Stop → Prop} (hc : CacheOk s)
    (hsearch : wp ok (searchFile path) s (Searched s (lookup s path)))
    (hok : (∀ r, ok r) ∨ HeapOk s ∧ NamesDir s path ∧ s.tasks s.cur ≠ none) :
    wp ok (sysChdir path) s fun r last =>
      r = -1 ∧ HandleFrame s last ∧ (HeapOk s → ¬NamesDir s path) ∨
        r = 0 ∧ NamesDir s path ∧ ∃ task, s.tasks s.cur = some task ∧ SameButHeap { s with
          tasks := Function.update s.tasks s.cur
            (some { task with cwdInodeNr := (lookup s path).inodeNo }) } last := by
  refine wp_seq hsearch ?_
  intro ⟨n, found⟩ cur hsearched
  rw [wp_ite]
  refine ⟨fun hdir => ?_, fun hdir => ?_⟩
  · rcases hsearched with ⟨hno, -, htype, hheld⟩ | ⟨-, found', hno', -, hno, -⟩
    · have hcur : cur.cur = s.cur ∧ cur.tasks = s.tasks := by
        rw [hheld.frame]
        exact ⟨rfl, rfl⟩
      rw [wp_bind, wp_running_thread, hcur.1, hcur.2]
      refine ⟨fun task htask => ?_, fun hnone => hok.elim (fun hok => hok _) fun h =>
        absurd hnone h.2.2⟩
      have hheld' := hheld.with_tables id fun tasks =>
        Function.update tasks cur.cur (some { task with cwdInodeNr := n })
      rw [wp_bind]
      refine wp_seq (dir_close_held (hc.with_tables _ _) hheld') fun _ last hlast => ?_
      rw [hcur.1] at hlast
      exact .inr ⟨rfl, ⟨hno ▸ hdir.1, htype ▸ hdir.2⟩, task, htask, hno ▸ hlast⟩
    · exact absurd (hno.trans hno') hdir.1
  · have hmiss : HeapOk s → ¬NamesDir s path := by
      intro hheap hnames
      rcases hsearched with ⟨hno, -, htype, -⟩ | ⟨hrefused, -⟩
      · exact hdir ⟨fun h => hnames.1 (hno.symm.trans h), htype.trans hnames.2⟩
      · exact hrefused hheap
    have hhold : Holding s found.parentDir cur := by
      rcases hsearched with hfound | ⟨-, found', -, -, hfound⟩
      · exact ⟨_, cur, hfound.held, HandleFrame.refl cur⟩
      · exact ⟨_, cur, hfound.held, HandleFrame.refl cur⟩
    exact wp_seq (dir_close_holding hc hhold) fun _ last hlast =>
      .inl ⟨rfl, hlast, hmiss⟩

/-! ## The two calls together -/

/-- The path is made of two or more slashes, and not too long. -/
def OnlySlashes (path : CStr) : Prop :=
  components path = [] ∧ 1 < path.length ∧ path.length < 128

/-- If `sys_chdir` returns 0 for a path that leads to the directory `d`, then `sys_getcwd` returns
the canonical path of `d` and a search for it finds `d`, whatever the uninitialised locals hold. -/
def GetcwdInverts (s : Kernel) (path : CStr) : Prop :=
  ∀ junk d mid, Walk s 0 .directory (components path) d .directory →
    sysChdir path { s with junk := junk } = .done 0 mid →
    ∃ names last r last', Canonical s names d ∧
      sysGetcwd 128 mid = .done (some (absPath names)) last ∧
      searchFile (absPath names) last = .done r last' ∧ r.1 = d

/-- The `sys_getcwd` after a `sys_chdir` to a directory gets its buffer. -/
def BufferServed (s : Kernel) (path : CStr) : Prop :=
  ∀ junk d mid, Walk s 0 .directory (components path) d .directory →
    sysChdir path { s with junk := junk } = .done 0 mid →
    mid.grant mid.heap.requests 512 = true

theorem components_eq_nil (h : components path = []) : ∀ c ∈ path, c = slash := by
  induction path with
  | nil => exact fun c hc => absurd hc (by simp)
  | cons c cs ih =>
    by_cases hc : c = slash
    · rw [hc] at h
      exact List.forall_mem_cons.2 ⟨hc, ih h⟩
    · obtain ⟨part, parts, hcs⟩ := List.exists_cons_of_ne_nil (split_slash_ne_nil cs)
      simp [components, splitSlash, hc, hcs] at h

/-- In a tree, a path that leads to a directory is looked up as that directory, unless it has no
component. -/
theorem lookup_of_walk (ht : TreeOk s isDir) (hpath : path = [slash] ∨ components path ≠ [])
    (hwalk : Walk s 0 .directory (components path) d .directory) :
    (lookup s path).inodeNo = d := by
  rcases lookup_cases ht hpath with h | ⟨pre, suf, hsplit, hsuf, h⟩ | ⟨-, h, -⟩
  · exact (walk_unique ht (fun _ => ht.root) h hwalk).1
  · exact absurd ⟨_, _, hsplit ▸ hwalk⟩ (no_walk_through_file ht ht.root h hsuf)
  · exact absurd ⟨_, _, hwalk⟩ h

/-- `sys_chdir` returns for no path of slashes but those `search_file` walks. -/
theorem chdir_path_cases {mid : Kernel} {r : Int} (hslashes : ¬OnlySlashes path)
    (hdone : sysChdir path s = .done r mid) : path = [slash] ∨ components path ≠ [] := by
  by_contra hnot
  obtain ⟨hroot, hnil⟩ := not_or.1 hnot
  have hnil := not_not.1 hnil
  have hguard : decide (path.head? = some slash ∧ 1 < path.length ∧ path.length < maxPathLen) =
      false := decide_eq_false fun h => hslashes ⟨hnil, h.2⟩
  have hstop : searchFile path s = .stop .assertFailed := by
    simp [searchFile, searchFileIn, is_root_path_slashes hroot hnil, assert, hguard, bind_run]
  rw [sysChdir, bind_run, hstop] at hdone
  cases hdone

/-- A search for the canonical path of a directory finds the directory. -/
theorem search_canonical (ht : ClimbOk s isDir) (hc : CacheOk s) (hheap : HeapOk s)
    (hl : TableLaidOut s.part) (hnames : Canonical s names d) (hlen : pathLength names < 128) :
    ∃ r last, searchFile (absPath names) s = .done r last ∧ r.1 = d := by
  have hnames' := canonical_names ht names hnames.2
  have hcomponents : components (absPath names) = names :=
    components_abs_path fun n hn => (hnames' n hn).1
  have hbound := length_abs_path names
  have hwalk : Walk s 0 .directory (components (absPath names)) d .directory := by
    rw [hcomponents]
    exact hnames.2
  obtain ⟨r, last, hdone, hno, -⟩ := search_file_done hc hheap hl ht.toTreeOk
    (head_abs_path names) (by omega) (fun c hcmem => (hnames' c (hcomponents ▸ hcmem)).2)
  refine ⟨r, last, hdone, hno.trans (lookup_of_walk ht.toTreeOk ?_ hwalk)⟩
  rw [hcomponents]
  by_cases hnil : names = []
  · exact .inl (by rw [hnil]; rfl)
  · exact .inr hnil

theorem getcwd_inverts (ht : ClimbOk s isDir) (hc : CacheOk s) (hheap : HeapOk s)
    (hl : TableLaidOut s.part) (hslashes : ¬OnlySlashes path) : GetcwdInverts s path := by
  intro junk d mid hwalk hdone
  have ht' := ht.with_heap_and_tasks s.heap s.tasks junk
  have hc' : CacheOk { s with junk := junk } := ⟨hc.fresh, hc.counted⟩
  have hspec := wp_any_iff.1 (sys_chdir_spec hc'
    (search_file_spec (G := fun _ => True) hc' (.inl fun _ => trivial))
    (.inl fun _ => trivial)) _ _ hdone
  rcases hspec with ⟨hr, -⟩ | ⟨-, -, task, htask, hmid⟩
  · exact absurd hr (by decide)
  have hd : (lookup { s with junk := junk } path).inodeNo = d :=
    lookup_of_walk ht'.toTreeOk (chdir_path_cases hslashes hdone)
      (hwalk.of_names fun _ _ _ _ hentry => hentry)
  obtain ⟨names, hnames, hlen⟩ := ht.canonical d (walk_is_dir ht.toTreeOk ht.root hwalk)
  obtain ⟨heap, hle, rfl⟩ := hmid
  rw [hd] at hdone ⊢
  set tasks := Function.update s.tasks s.cur (some { task with cwdInodeNr := d })
  have hcm : CacheOk { s with heap := heap, tasks := tasks, junk := junk } :=
    ⟨fun p hp => hc.fresh p (Nat.lt_of_le_of_lt hle hp), hc.counted⟩
  have hcanon : ∀ heap, Canonical { s with heap := heap, tasks := tasks, junk := junk } names d :=
    fun _ => ⟨hnames.1, hnames.2.of_names fun _ _ _ _ hentry => hentry⟩
  have hcwd := sys_getcwd_spec (ht.with_heap_and_tasks heap tasks junk) hcm hheap hl
    (Function.update_self ..) (hcanon heap) hlen
  obtain ⟨r, last, hgetcwd, hr, heap', hle', rfl⟩ := wp_never_iff.1 hcwd
  obtain ⟨found, last', hsearch, hfound⟩ := search_canonical
    (ht.with_heap_and_tasks heap' tasks junk)
    ⟨fun p hp => hcm.fresh p (Nat.lt_of_le_of_lt hle' hp), hc.counted⟩ hheap hl (hcanon heap') hlen
  exact ⟨names, _, found, last', hnames, hr ▸ hgetcwd, hsearch, hfound⟩

/-- A path of slashes makes an uninitialised number the working directory. -/
theorem not_getcwd_inverts (ht : ClimbOk s isDir) (hc : CacheOk s) (hheap : HeapOk s)
    (hl : TableLaidOut s.part) (htask : s.tasks s.cur ≠ none) (hslashes : OnlySlashes path) :
    ¬GetcwdInverts s path := by
  intro h
  obtain ⟨hnil, hlong, hshort⟩ := hslashes
  have hall := components_eq_nil hnil
  have habs : path.head? = some slash := by
    cases path with
    | nil => simp at hlong
    | cons c cs => rw [List.head?_cons, hall c (List.mem_cons_self ..)]
  set s' : Kernel := { s with junk := fun _ => 5000 } with hs'
  have hc' : CacheOk s' := ⟨hc.fresh, hc.counted⟩
  have ht' := ht.with_heap_and_tasks s.heap s.tasks fun _ => 5000
  have hlookup : (lookup s' path).inodeNo = 5000 ∧ (lookup s' path).fileType = .directory := by
    have hroot : isRootPath path = false :=
      is_root_path_slashes (fun hroot => by simp [hroot] at hlong) hnil
    rw [lookup, if_neg (by simp [hroot]), hnil]
    exact ⟨rfl, rfl⟩
  have hnames : NamesDir s' path := ⟨by rw [hlookup.1]; decide, hlookup.2⟩
  have hsearch : wp never (searchFile path) s' (Searched s' (lookup s' path)) :=
    search_file_spec hc' (.inr ⟨tree_search_safe ht'.toTreeOk hheap hl, ht.root, habs, hshort,
      by simp [hnil]⟩)
  obtain ⟨r, mid, hdone, hspec⟩ :=
    wp_never_iff.1 (sys_chdir_spec hc' hsearch (.inr ⟨hheap, hnames, htask⟩))
  rcases hspec with ⟨-, -, hmiss⟩ | ⟨rfl, -, task, -, heap, -, hmid⟩
  · exact hmiss hheap hnames
  -- the number is no inode, and `sys_getcwd` fails its assertion
  obtain ⟨names, last, -, -, -, hgetcwd, -⟩ := h (fun _ => 5000) 0 mid (hnil ▸ .nil _ _) hdone
  have hcwd : mid.tasks mid.cur = some { task with cwdInodeNr := 5000 } := by
    rw [hmid, ← hlookup.1]
    exact Function.update_self ..
  have hstop : wp any (sysGetcwd 128) mid fun r _ => r = none := by
    unfold sysGetcwd
    rw [wp_bind, wp_sys_malloc]
    refine ⟨fun _ => ?_, fun _ => rfl⟩
    rw [wp_bind, wp_running_thread]
    refine ⟨fun task' htask' => ?_, fun _ => trivial⟩
    rw [wp_bind, wp_assert]
    refine ⟨fun hsmall => absurd (of_decide_eq_true hsmall) ?_, fun _ => trivial⟩
    rw [Option.some.inj (htask'.symm.trans hcwd)]
    show ¬(5000 : UInt32) < 4096
    decide
  exact absurd (wp_any_iff.1 hstop _ _ hgetcwd) (by simp)

/-- In a tree and with memory, `sys_getcwd` inverts `sys_chdir` for a path if and only if the path
does not consist of two or more slashes. Memory is needed: a `sys_getcwd` that gets no buffer
returns `NULL`. -/
theorem getcwd_inverts_iff (ht : ClimbOk s isDir) (hc : CacheOk s) (hl : TableLaidOut s.part)
    (htask : s.tasks s.cur ≠ none) :
    (HeapOk s → (GetcwdInverts s path ↔ ¬OnlySlashes path)) ∧
    (GetcwdInverts s path → BufferServed s path) := by
  refine ⟨fun hheap => ⟨fun h hslashes => ?_, getcwd_inverts ht hc hheap hl⟩, ?_⟩
  · exact not_getcwd_inverts ht hc hheap hl htask hslashes h
  · intro h junk d mid hwalk hdone
    obtain ⟨names, last, -, -, -, hgetcwd, -⟩ := h junk d mid hwalk hdone
    by_contra hrefused
    rw [sysGetcwd, bind_run, sysMalloc] at hgetcwd
    simp [bind_run, hrefused] at hgetcwd

/-- In the root directory with one file, only the dots are directories. -/
theorem one_file_dirs (h : Names oneFile 0 name m .directory) :
    name = dotName ∨ name = dotdotName := by
  obtain ⟨e, hslot, -, -, htype⟩ := h
  obtain ⟨idx, hidx, rfl, rfl⟩ := one_file_slot hslot
  clear hslot
  revert idx
  decide +kernel

theorem one_file_climb : ClimbOk oneFile (· = 0) where
  toParentsOk := one_file_parents
  canonical := by
    intro d hd
    subst hd
    exact ⟨[], ⟨fun _ h => absurd h (by simp), .nil _ _⟩, by decide⟩
  acyclic := by
    intro n names hn hne hdots hwalk
    subst hn
    cases hwalk with
    | nil => exact hne rfl
    | cons hentry hrest =>
      obtain ⟨hdot, hdotdot⟩ := hdots _ (List.mem_cons_self ..)
      cases hrest with
      | nil => exact (one_file_dirs hentry).elim hdot hdotdot
      | cons _ _ => exact (one_file_dirs hentry).elim hdot hdotdot
  named := by
    intro n hn name m t hentry
    subst hn
    obtain ⟨e, hslot, hlive, -, -⟩ := hentry
    obtain ⟨idx, hidx, rfl, rfl⟩ := one_file_slot hslot
    clear hslot
    unfold IsName
    revert idx
    decide +kernel
  zeroed := by
    intro n hn name e hslot
    subst hn
    obtain ⟨idx, hidx, rfl, rfl⟩ := one_file_slot hslot
    clear hslot
    revert idx
    decide +kernel
  once := by
    intro n hn name name' m t hentry _ hdot hdotdot
    subst hn
    exact absurd (one_file_dirs hentry) (not_or.2 ⟨hdot, hdotdot⟩)
  perSec := by decide
  second := by
    intro n hn
    subst hn
    decide +kernel

/-- `sys_getcwd` inverts `sys_chdir` for `/..`, which succeeds. -/
theorem getcwd_inverts_dotdot : (∃ mid, sysChdir [slash, 46, 46] oneFile = .done 0 mid) ∧
    GetcwdInverts oneFile [slash, 46, 46] := by
  exact ⟨⟨_, rfl⟩, (getcwd_inverts_iff one_file_climb one_file_cache one_file_laid_out
    (by decide)).1 (fun _ _ => rfl) |>.2 fun h => absurd h.1 (by decide)⟩

/-- `//` leads to the root, but `sys_chdir` stores an uninitialised number. -/
theorem getcwd_fails_after_slashes : ¬GetcwdInverts oneFile [slash, slash] :=
  not_getcwd_inverts one_file_climb one_file_cache (fun _ _ => rfl) one_file_laid_out (by decide)
    ⟨by decide, by decide, by decide⟩

end LosKernel
