import LosKernel.Fs.PathExact

/-!
# Canonical paths

An absolute path is made of component names, each behind a slash. `ParentsOk` is a well-formed
tree whose `..` entries name the parents; walks in it are taken apart at their last step.
-/

namespace LosKernel

variable {names : List CStr} {name : CStr} {s : Kernel} {k n m : UInt32} {u : FileType}
  {isDir : UInt32 → Prop}

/-! ## Absolute paths -/

/-- The text of a component. -/
def IsName (name : CStr) : Prop := name ≠ [] ∧ ∀ c ∈ name, c ≠ slash

theorem split_slash_no_slash (path : CStr) : ∀ part ∈ splitSlash path, ∀ c ∈ part, c ≠ slash := by
  induction path with
  | nil => simp [splitSlash]
  | cons c cs ih =>
    obtain ⟨part, parts, hcs⟩ := List.exists_cons_of_ne_nil (split_slash_ne_nil cs)
    by_cases hc : c = slash
    · simpa [splitSlash, hc] using ih
    · simp only [splitSlash, if_neg hc, hcs, List.forall_mem_cons] at ih ⊢
      exact ⟨⟨hc, ih.1⟩, ih.2⟩

theorem components_are_names (path : CStr) : ∀ name ∈ components path, IsName name := by
  intro name hname
  simp only [components, List.mem_filter, decide_eq_true_eq] at hname
  exact ⟨hname.2, split_slash_no_slash path name hname.1⟩

/-- The absolute path with the components `names`. -/
def absPath (names : List CStr) : CStr :=
  if names = [] then [slash] else names.flatMap (slash :: ·)

theorem abs_path_append (names : List CStr) (name : CStr) :
    absPath (names ++ [name]) = names.flatMap (slash :: ·) ++ slash :: name := by
  simp [absPath]

theorem abs_path_eq_root (h : ∀ n ∈ names, IsName n) : absPath names = [slash] ↔ names = [] := by
  refine ⟨fun hroot => ?_, fun hnil => by simp [absPath, hnil]⟩
  cases names with
  | nil => rfl
  | cons name names =>
    obtain ⟨hne, -⟩ := h name (List.mem_cons_self ..)
    simp [absPath, hne] at hroot

theorem front_append (front : CStr) (h : ∀ c ∈ name, c ≠ slash) :
    (((front ++ slash :: name).reverse.dropWhile (· != slash)).drop 1).reverse = front := by
  rw [List.reverse_append, List.reverse_cons, List.append_assoc,
    List.dropWhile_append_of_pos fun c hc => by simpa using h c (List.mem_reverse.1 hc)]
  simp

theorem base_name_append (front : CStr) (h : ∀ c ∈ name, c ≠ slash) :
    baseName (front ++ slash :: name) = name := by
  unfold baseName
  rw [List.reverse_append, List.reverse_cons, List.append_assoc,
    List.takeWhile_append_of_pos fun c hc => by simpa using h c (List.mem_reverse.1 hc)]
  simp

theorem head_abs_path (names : List CStr) : (absPath names).head? = some slash := by
  cases names <;> simp [absPath]

theorem path_length_append (names names' : List CStr) :
    pathLength (names ++ names') = pathLength names + pathLength names' := by
  simp [pathLength]

theorem path_length_cons (name : CStr) (names : List CStr) :
    pathLength (name :: names) = name.length + 1 + pathLength names := by
  simp [pathLength]

theorem length_abs_path (names : List CStr) :
    (absPath names).length ≤ max 1 (pathLength names) := by
  unfold absPath
  split
  · simp
  · simp [pathLength]

theorem components_abs_path (h : ∀ n ∈ names, IsName n) : components (absPath names) = names := by
  induction names with
  | nil => rfl
  | cons name names ih =>
    obtain ⟨⟨hne, hname⟩, hrest⟩ := List.forall_mem_cons.1 h
    have hhead : names.flatMap (slash :: ·) = [] ∨
        (names.flatMap (slash :: ·)).head? = some slash := by
      cases names <;> simp
    have htail : components (names.flatMap (slash :: ·)) = names := by
      cases names with
      | nil => rfl
      | cons _ _ => simpa [absPath] using ih hrest
    simp [absPath, components_slash, components_append hname hne hhead, htail]

/-! ## Walks by their last step -/

/-- A well-formed tree in which the `..` entry of every directory names its parent. -/
structure ParentsOk (s : Kernel) (isDir : UInt32 → Prop) : Prop extends TreeOk s isDir where
  parent : ∀ n, isDir n → ∀ name m, Names s n name m .directory → name ≠ dotName →
    name ≠ dotdotName → Names s m dotdotName n .directory

theorem walk_last {t : FileType} (h : Walk s n t (names ++ [name]) m u) :
    ∃ k, Walk s n t names k .directory ∧ Names s k name m u := by
  obtain ⟨k, v, hpre, hlast⟩ := walk_append h
  cases hlast with
  | cons hentry hnil =>
    cases hnil
    exact ⟨k, hpre, hentry⟩

theorem walk_is_dir (ht : TreeOk s isDir) (hn : isDir n)
    (h : Walk s n .directory names k .directory) : isDir k :=
  (walk_target ht (ht.number n hn).1 (fun _ => hn) h).2 rfl

/-- A prefix of a walk to a directory leads to a directory. -/
theorem walk_take {pre suf : List CStr} (h : Walk s n .directory (pre ++ suf) k .directory) :
    ∃ j, Walk s n .directory pre j .directory := by
  obtain ⟨j, v, hpre, hsuf⟩ := walk_append h
  cases hsuf with
  | nil => exact ⟨_, hpre⟩
  | cons _ _ => exact ⟨_, hpre⟩

theorem one_file_parents : ParentsOk oneFile (· = 0) where
  toTreeOk := one_file_tree
  parent := by
    intro n hn name m hentry hdot hdotdot
    subst hn
    obtain ⟨e, hslot, -, -, htype⟩ := hentry
    obtain ⟨idx, hidx, hname, he⟩ := one_file_slot hslot
    -- the only directories in the root are the dots
    have hdots : ∀ i < 21, (DirEntry.ofBlock (sectorAt oneFile.disk 675) i).fType =
        FileType.directory.code → slotName (sectorAt oneFile.disk 675) i = dotName ∨
        slotName (sectorAt oneFile.disk 675) i = dotdotName := by
      decide +kernel
    rcases hdots idx hidx (he ▸ htype) with h | h
    · exact absurd (hname.symm.trans h) hdot
    · exact absurd (hname.symm.trans h) hdotdot

end LosKernel
