import LosKernel.Fs.Canonical
import LosKernel.Shell.Commands

/-!
# Cleaning a path

`wash_path` removes the `.` and `..` of a path as text; the search in the kernel follows the
entries on the disk instead. In a tree whose `..` entries name the parents the two agree: a
component that is still there after cleaning is the name of a directory in the one before it.
-/

namespace LosKernel

open Prog

variable {names rest : List CStr} {name path : CStr} {P : CStr → Prop} {ok : Stop → Prop}
  {m : UInt32} {u : FileType} {s : Kernel} {isDir : UInt32 → Prop}

/-! ## Cleaned paths -/

/-- The components that are left after `name`. -/
def cleanName (names : List CStr) (name : CStr) : List CStr :=
  if name = dotdotName then names.dropLast
  else if name = dotName then names
  else names ++ [name]

/-- The components that are left of a path. -/
def cleanNames (path : CStr) : List CStr := (components path).foldl cleanName []

/-- A path from the root without its `.` and `..`. -/
def cleaned (path : CStr) : CStr := absPath (cleanNames path)

/-- What holds of the components kept so far and of a new one that is no dot holds of what is left
after it. -/
theorem forall_mem_clean_name (h : ∀ n ∈ names, P n)
    (hname : name ≠ dotName → name ≠ dotdotName → P name) : ∀ n ∈ cleanName names name, P n := by
  unfold cleanName
  split
  · exact fun n hn => h n (List.dropLast_subset names hn)
  · split
    · exact h
    · rename_i hdotdot hdot
      intro n hn
      rcases List.mem_append.1 hn with hn | hn
      · exact h n hn
      · exact List.mem_singleton.1 hn ▸ hname hdot hdotdot

theorem forall_mem_clean (rest : List CStr) : ∀ names : List CStr,
    (∀ n ∈ names, P n) → (∀ n ∈ rest, n ≠ dotName → n ≠ dotdotName → P n) →
    ∀ n ∈ rest.foldl cleanName names, P n := by
  induction rest with
  | nil => exact fun names h _ => h
  | cons name rest ih =>
    intro names h hrest
    obtain ⟨hname, hrest⟩ := List.forall_mem_cons.1 hrest
    exact ih _ (forall_mem_clean_name h hname) hrest

theorem drop_last_name_abs_path (h : ∀ n ∈ names, IsName n) :
    dropLastName (absPath names) = absPath names.dropLast := by
  rcases List.eq_nil_or_concat names with rfl | ⟨init, name, rfl⟩
  · rfl
  · rw [List.concat_eq_append] at h ⊢
    obtain ⟨-, hname⟩ := h name (by simp)
    rw [abs_path_append, List.dropLast_concat]
    simp only [dropLastName, front_append _ hname, absPath]
    cases init <;> simp

theorem wash_name_abs_path (h : ∀ n ∈ names, IsName n) (name : CStr) :
    washName (absPath names) name = absPath (cleanName names name) := by
  unfold washName cleanName
  split
  · exact drop_last_name_abs_path h
  · split
    · rfl
    · simp only [abs_path_eq_root h]
      cases names <;> simp [absPath]

theorem path_length_clean_name (names : List CStr) (name : CStr) :
    pathLength (cleanName names name) ≤ pathLength names + (name.length + 1) := by
  unfold cleanName
  split
  · rcases List.eq_nil_or_concat names with rfl | ⟨init, last, rfl⟩
    · simp [pathLength]
    · rw [List.concat_eq_append, List.dropLast_concat, path_length_append]
      omega
  · split
    · omega
    · simp [pathLength]

/-- What keeps `wash_path` from stopping at the components `rest` after `names`. -/
structure WashSafe (names rest : List CStr) (fuel : Nat) : Prop where
  short : ∀ c ∈ rest, c.length < 16
  room : pathLength names + pathLength rest < 128
  fuel : rest.length < fuel

theorem WashSafe.next {fuel : Nat} (h : WashSafe names (name :: rest) (fuel + 1)) :
    WashSafe (cleanName names name) rest fuel where
  short := fun c hc => h.short c (List.mem_cons_of_mem name hc)
  room := by
    have hroom := h.room
    have hclean := path_length_clean_name names name
    rw [path_length_cons] at hroom
    omega
  fuel := by
    have hfuel := h.fuel
    rw [List.length_cons] at hfuel
    omega

/-- The loop of `wash_path` folds the components. -/
theorem wash_loop_spec (fuel : Nat) : ∀ subPath name names,
    (∀ n ∈ names, IsName n) → (∀ n ∈ parsed subPath name, IsName n) →
    ((∀ r, ok r) ∨ WashSafe names (parsed subPath name) fuel) →
    wp ok (washLoop 15 fuel subPath name (absPath names)) s fun r last =>
      r = absPath ((parsed subPath name).foldl cleanName names) ∧ last = s := by
  induction fuel with
  | zero =>
    intro subPath name names _ _ hok
    exact hok.elim (fun hok => hok _) fun h => absurd h.fuel (Nat.not_lt_zero _)
  | succ fuel ih =>
    intro subPath name names hnames hparsed hok
    unfold washLoop
    rw [wp_bind, wp_access]
    by_cases hname : name = []
    · subst hname
      exact ⟨fun _ => ⟨rfl, rfl⟩, fun h => by simp at h⟩
    · have hcons : parsed subPath name = name :: components (subPath.getD []) := by
        simp [parsed, hname]
      rw [hcons] at hparsed hok ⊢
      obtain ⟨hname', hrest⟩ := List.forall_mem_cons.1 hparsed
      refine ⟨fun _ => ?_, fun hlong => ?_⟩
      · rw [if_neg hname, wp_bind, wp_access, wash_name_abs_path hnames]
        refine ⟨fun _ => ?_, fun hlong => ?_⟩
        · rw [← parsed_next subPath] at hrest hok
          rw [← parsed_next subPath]
          exact ih _ _ _ (forall_mem_clean_name hnames fun _ _ => hname') hrest
            (hok.imp_right WashSafe.next)
        · refine hok.elim (fun hok => hok _) fun h => absurd ?_ (of_decide_eq_false hlong)
          have hroom := h.next.room
          have hlen := length_abs_path (cleanName names name)
          show (absPath (cleanName names name)).length < 128
          omega
      · exact hok.elim (fun hok => hok _) fun h =>
          absurd (h.short name (List.mem_cons_self ..)) (of_decide_eq_false hlong)

/-- `wash_path` cleans the path. It does not stop for an absolute path that is not too long and has
no component that is too long. -/
theorem wash_path_spec
    (hok : (∀ r, ok r) ∨ path.head? = some slash ∧ path.length < 128 ∧ ∀ c ∈ components path,
      c.length < 16) : wp ok (washPath path) s fun r last => r = cleaned path ∧ last = s := by
  rw [washPath, washPathIn, wp_bind, wp_assert]
  refine ⟨fun _ => ?_, fun hslash => ?_⟩
  · have hspec := @wash_loop_spec ok s (path.length + 1) (pathParse path).1 (pathParse path).2 []
    rw [parsed_path_parse] at hspec
    refine hspec (by simp) (components_are_names path) (hok.imp_right ?_)
    intro ⟨hhead, hlen, hshort⟩
    have hroom := path_length_components_abs hhead
    have hcount := length_le_path_length (components path)
    exact ⟨hshort, by simpa [pathLength] using Nat.lt_of_le_of_lt hroom hlen, by omega⟩
  · refine hok.elim (fun hok => hok _) fun h => absurd h.1 ?_
    simpa using hslash

theorem clean_names_are_names (path : CStr) : ∀ n ∈ cleanNames path, IsName n :=
  forall_mem_clean _ [] (by simp) fun n hn _ _ => components_are_names path n hn

theorem components_cleaned (path : CStr) : components (cleaned path) = cleanNames path :=
  components_abs_path (clean_names_are_names path)

theorem path_length_clean (rest : List CStr) : ∀ names : List CStr,
    pathLength (rest.foldl cleanName names) ≤ pathLength names + pathLength rest := by
  induction rest with
  | nil => exact fun names => Nat.le_add_right _ _
  | cons name rest ih =>
    intro names
    have hname := path_length_clean_name names name
    have hrest := ih (cleanName names name)
    rw [List.foldl_cons, path_length_cons]
    omega

theorem length_cleaned_le (habs : path.head? = some slash) :
    (cleaned path).length ≤ path.length := by
  have hpath := path_length_components_abs habs
  have hclean : pathLength (cleanNames path) ≤ 0 + pathLength (components path) :=
    path_length_clean (components path) []
  have hbound := length_abs_path (cleanNames path)
  have hpos : 1 ≤ path.length := by
    cases path with
    | nil => simp at habs
    | cons c cs => simp
  show (absPath (cleanNames path)).length ≤ path.length
  omega

theorem length_cleaned (habs : path.head? = some slash) (hlen : path.length < 128) :
    (cleaned path).length < 128 := Nat.lt_of_le_of_lt (length_cleaned_le habs) hlen

theorem clean_short (h : ∀ c ∈ names, c.length < 16) :
    ∀ c ∈ names.foldl cleanName [], c.length < 16 :=
  forall_mem_clean names [] (by simp) fun c hc _ _ => h c hc

theorem cleaned_cases (path : CStr) : cleaned path = [slash] ∨ components (cleaned path) ≠ [] := by
  rw [components_cleaned]
  by_cases hnil : cleanNames path = []
  · exact .inl (by rw [cleaned, hnil]; rfl)
  · exact .inr hnil

/-! ## Cleaning and the tree -/

/-- A step of the walk, against the components that are left. -/
theorem walk_clean_name (ht : ParentsOk s isDir) {k : UInt32}
    (hdots : ∀ n ∈ names, n ≠ dotName ∧ n ≠ dotdotName)
    (hwalk : Walk s 0 .directory names k .directory) (hentry : Names s k name m u) :
    Walk s 0 .directory (cleanName names name) m u := by
  have hk : isDir k := walk_is_dir ht.toTreeOk ht.root hwalk
  unfold cleanName
  split
  · rename_i hdotdot
    subst hdotdot
    rcases List.eq_nil_or_concat names with hnil | ⟨init, last, hinit⟩
    · -- the root is its own parent
      subst hnil
      cases hwalk
      obtain ⟨rfl, rfl⟩ := names_unique ht.toTreeOk hk hentry ht.rootDotdot
      exact .nil _ _
    · rw [List.concat_eq_append] at hinit
      subst hinit
      obtain ⟨hdot, hdotdot⟩ := hdots last (by simp)
      obtain ⟨j, hj, hlast⟩ := walk_last hwalk
      have hparent := ht.parent j (walk_is_dir ht.toTreeOk ht.root hj) last k hlast hdot hdotdot
      obtain ⟨rfl, rfl⟩ := names_unique ht.toTreeOk hk hentry hparent
      rwa [List.dropLast_concat]
  · split
    · rename_i hdot
      subst hdot
      obtain ⟨rfl, rfl⟩ := names_unique ht.toTreeOk hk hentry (ht.dot k hk)
      exact hwalk
    · exact walk_snoc hwalk hentry

theorem clean_no_dots (names : List CStr) :
    ∀ n ∈ names.foldl cleanName [], n ≠ dotName ∧ n ≠ dotdotName :=
  forall_mem_clean names [] (by simp) fun _ _ hdot hdotdot => ⟨hdot, hdotdot⟩

/-- The walk along the cleaned components ends where the walk along the components does. -/
theorem walk_clean (ht : ParentsOk s isDir) (names : List CStr) : ∀ {m : UInt32} {u : FileType},
    Walk s 0 .directory names m u → Walk s 0 .directory (names.foldl cleanName []) m u := by
  induction names using List.reverseRecOn with
  | nil => exact fun h => h
  | append_singleton names name ih =>
    intro m u h
    obtain ⟨k, hpre, hentry⟩ := walk_last h
    rw [List.foldl_append]
    exact walk_clean_name ht (clean_no_dots names) (ih hpre) hentry

/-- Every proper prefix of the components leads to a directory. -/
def PrefixesResolve (s : Kernel) (names : List CStr) : Prop :=
  ∀ pre suf, names = pre ++ suf → suf ≠ [] → ∃ m, Walk s 0 .directory pre m .directory

theorem not_through_file (ht : TreeOk s isDir) (h : PrefixesResolve s names) :
    ¬ThroughFile s 0 names := by
  intro ⟨pre, suf, m, hsplit, hsuf, hwalk⟩
  obtain ⟨m', hwalk'⟩ := h pre suf hsplit hsuf
  obtain ⟨-, htype⟩ := walk_unique ht (fun _ => ht.root) hwalk hwalk'
  cases htype

/-- What is left of components without their last one, with the last one added. -/
theorem clean_concat (names : List CStr) (name : CStr) :
    (names ++ [name]).foldl cleanName [] = cleanName (names.foldl cleanName []) name := by
  rw [List.foldl_append]
  rfl

/-- A walk along the cleaned components is one along the components. -/
theorem walk_of_clean (ht : ParentsOk s isDir) (h : PrefixesResolve s names)
    (hwalk : Walk s 0 .directory (names.foldl cleanName []) m u) :
    Walk s 0 .directory names m u := by
  rcases List.eq_nil_or_concat names with rfl | ⟨init, name, rfl⟩
  · exact hwalk
  · rw [List.concat_eq_append] at h hwalk ⊢
    obtain ⟨k, hk⟩ := h init [name] rfl (by simp)
    have hdir := walk_is_dir ht.toTreeOk ht.root hk
    -- the dots are always there, and another name is the last of the cleaned components
    have hentry : ∃ m' u', Names s k name m' u' := by
      by_cases hdotdot : name = dotdotName
      · obtain ⟨m', hm'⟩ := ht.dotdot k hdir
        exact ⟨m', _, hdotdot ▸ hm'⟩
      · by_cases hdot : name = dotName
        · exact ⟨k, _, hdot ▸ ht.dot k hdir⟩
        · rw [clean_concat, cleanName, if_neg hdotdot, if_neg hdot] at hwalk
          obtain ⟨j, hj, hlast⟩ := walk_last hwalk
          obtain ⟨rfl, -⟩ := walk_unique ht.toTreeOk (fun _ => ht.root) hj (walk_clean ht init hk)
          exact ⟨m, u, hlast⟩
    obtain ⟨m', u', hentry⟩ := hentry
    have hpath := walk_snoc hk hentry
    obtain ⟨rfl, rfl⟩ :=
      walk_unique ht.toTreeOk (fun _ => ht.root) hwalk (walk_clean ht _ hpath)
    exact hpath

/-- A proper prefix of what is left is a prefix of what was left before. -/
theorem prefix_of_clean_name {pre suf : List CStr} (h : cleanName names name = pre ++ suf)
    (hsuf : suf ≠ []) : pre <+: names := by
  unfold cleanName at h
  split at h
  · exact (List.prefix_append pre suf).trans (h ▸ List.dropLast_prefix names)
  · split at h
    · exact ⟨suf, h.symm⟩
    · obtain ⟨suf', last, hconcat⟩ := (List.eq_nil_or_concat suf).resolve_left hsuf
      rw [hconcat, List.concat_eq_append, ← List.append_assoc] at h
      exact ⟨suf', (List.append_inj_left' h rfl).symm⟩

theorem clean_prefixes_resolve (ht : ParentsOk s isDir) (h : PrefixesResolve s names) :
    PrefixesResolve s (names.foldl cleanName []) := by
  intro pre suf hsplit hsuf
  rcases List.eq_nil_or_concat names with rfl | ⟨init, name, rfl⟩
  · simp at hsplit
    exact absurd hsplit.2 hsuf
  · rw [List.concat_eq_append] at h
    rw [List.concat_eq_append, clean_concat] at hsplit
    obtain ⟨k, hk⟩ := h init [name] rfl (by simp)
    have hclean := walk_clean ht init hk
    obtain ⟨rest, hrest⟩ := prefix_of_clean_name hsplit hsuf
    rw [← hrest] at hclean
    exact walk_take hclean

/-- Two paths that no regular file interrupts and whose walks agree are looked up alike. -/
theorem lookup_congr (ht : TreeOk s isDir) {path' : CStr}
    (hpath : path = [slash] ∨ components path ≠ [])
    (hpath' : path' = [slash] ∨ components path' ≠ []) (hfile : ¬ThroughFile s 0 (components path))
    (hfile' : ¬ThroughFile s 0 (components path'))
    (hwalk : ∀ m u, Walk s 0 .directory (components path) m u ↔
      Walk s 0 .directory (components path') m u) :
    (lookup s path).inodeNo = (lookup s path').inodeNo ∧
      (lookup s path).fileType = (lookup s path').fileType := by
  rcases lookup_cases ht hpath with h | ⟨pre, suf, hsplit, hsuf, h⟩ | ⟨⟨hno, htype⟩, h, -⟩
  · rcases lookup_cases ht hpath' with h' | ⟨pre, suf, hsplit, hsuf, h'⟩ | ⟨-, h', -⟩
    · exact walk_unique ht (fun _ => ht.root) ((hwalk _ _).1 h) h'
    · exact absurd ⟨pre, suf, _, hsplit, hsuf, h'⟩ hfile'
    · exact absurd ⟨_, _, (hwalk _ _).1 h⟩ h'
  · exact absurd ⟨pre, suf, _, hsplit, hsuf, h⟩ hfile
  · rcases lookup_cases ht hpath' with h' | ⟨pre, suf, hsplit, hsuf, h'⟩ | ⟨⟨hno', htype'⟩, -⟩
    · exact absurd ⟨_, _, (hwalk _ _).2 h'⟩ h
    · exact absurd ⟨pre, suf, _, hsplit, hsuf, h'⟩ hfile'
    · exact ⟨hno.trans hno'.symm, htype.trans htype'.symm⟩

/-- In a well-formed tree, `wash_path` and the search in the kernel agree on every path whose proper
prefixes lead to directories: the search for the cleaned path gives the same inode and type. -/
theorem wash_path_keeps_target {s : Kernel} {isDir : UInt32 → Prop} {path : CStr} (hc : CacheOk s)
    (hheap : HeapOk s) (hl : TableLaidOut s.part) (ht : ParentsOk s isDir)
    (habs : path.head? = some slash) (hlen : path.length < 128)
    (hshort : ∀ c ∈ components path, c.length < 16) (hne : components path ≠ [])
    (hdirs : PrefixesResolve s (components path)) :
    ∃ clean, washPath path s = .done clean s ∧ ∃ r last r' last',
      searchFile clean s = .done r last ∧ searchFile path s = .done r' last' ∧
      r.1 = r'.1 ∧ r.2.fileType = r'.2.fileType := by
  have hwash : wp never (washPath path) s fun r last => r = cleaned path ∧ last = s :=
    wash_path_spec (.inr ⟨habs, hlen, hshort⟩)
  obtain ⟨clean, last, hdone, rfl, rfl⟩ := wp_never_iff.1 hwash
  have hcomponents : components (cleaned path) = (components path).foldl cleanName [] :=
    components_cleaned path
  have hlookup : (lookup last (cleaned path)).inodeNo = (lookup last path).inodeNo ∧
      (lookup last (cleaned path)).fileType = (lookup last path).fileType := by
    refine lookup_congr ht.toTreeOk (cleaned_cases path) (.inr hne) ?_
      (not_through_file ht.toTreeOk hdirs) ?_
    · rw [hcomponents]
      exact not_through_file ht.toTreeOk (clean_prefixes_resolve ht hdirs)
    · rw [hcomponents]
      exact fun m u => ⟨walk_of_clean ht hdirs, walk_clean ht _⟩
  have habs' : (cleaned path).head? = some slash := head_abs_path _
  obtain ⟨r, mid, hclean, hno, htype⟩ := search_file_done hc hheap hl ht.toTreeOk habs'
    (length_cleaned habs hlen) (hcomponents ▸ clean_short hshort)
  obtain ⟨r', mid', hsearch, hno', htype'⟩ :=
    search_file_done hc hheap hl ht.toTreeOk habs hlen hshort
  refine ⟨cleaned path, hdone, r, mid, r', mid', hclean, hsearch, ?_, ?_⟩
  · rw [hno, hno', hlookup.1]
  · rw [htype, htype', hlookup.2]

/-- `/../f` is cleaned to `/f`, and both name the file. -/
theorem wash_path_keeps_one_file : ∃ clean,
    washPath [slash, 46, 46, slash, 102] oneFile = .done clean oneFile ∧ ∃ r last r' last',
      searchFile clean oneFile = .done r last ∧
      searchFile [slash, 46, 46, slash, 102] oneFile = .done r' last' ∧
      r.1 = r'.1 ∧ r.2.fileType = r'.2.fileType := by
  refine wash_path_keeps_target one_file_cache (fun _ _ => rfl) one_file_laid_out one_file_parents
    rfl (by decide) (by decide) (by decide) ?_
  intro pre suf hsplit hsuf
  cases pre with
  | nil => exact ⟨0, .nil _ _⟩
  | cons name pre =>
    obtain ⟨rfl, hrest⟩ := List.cons.inj hsplit
    cases pre with
    | nil => exact ⟨0, .cons one_file_tree.rootDotdot (.nil _ _)⟩
    | cons name' pre =>
      obtain ⟨-, hnil⟩ := List.cons.inj hrest
      exact absurd (List.append_eq_nil_iff.1 hnil.symm).2 hsuf

/-- The same search without memory for its second directory: `/../f` is not found, while `/f`, to
which it is cleaned, is. -/
theorem wash_path_loses_target : ∃ grant, ∃ r last r' last',
    washPath [slash, 46, 46, slash, 102] { oneFile with grant := grant } =
      .done [slash, 102] { oneFile with grant := grant } ∧
    searchFile [slash, 102] { oneFile with grant := grant } = .done r last ∧ r.1 = 1 ∧
    searchFile [slash, 46, 46, slash, 102] { oneFile with grant := grant } = .done r' last' ∧
      r'.1 = noInode :=
  ⟨fun k _ => k != 5, _, _, _, _, rfl, rfl, rfl, rfl, rfl⟩

/-! ## What `wash_path` returns -/

/-- The components with slashes between them, behind a slash. -/
theorem abs_path_eq_intercalate (names : List CStr) :
    absPath names = slash :: [slash].intercalate names := by
  cases names with
  | nil => rfl
  | cons name names =>
    induction names generalizing name with
    | nil => simp [absPath]
    | cons name' names ih =>
      have hrest := ih name'
      simp only [absPath, List.cons_ne_nil, if_false] at hrest ⊢
      rw [List.flatMap_cons, hrest]
      simp

theorem split_slash_abs_path (h : ∀ n ∈ names, IsName n) (hne : names ≠ []) :
    splitSlash (absPath names) = [] :: names := by
  rw [absPath, if_neg hne]
  induction names with
  | nil => exact absurd rfl hne
  | cons name names ih =>
    obtain ⟨⟨-, hname⟩, hrest⟩ := List.forall_mem_cons.1 h
    rw [List.flatMap_cons, List.cons_append, splitSlash]
    obtain ⟨part, parts, hsplit, happend⟩ :=
      split_slash_append hname (names.flatMap (slash :: ·))
    rw [happend]
    cases names with
    | nil =>
      simp only [List.flatMap_nil, splitSlash, List.cons.injEq] at hsplit
      simp [← hsplit.1, ← hsplit.2]
    | cons name' names =>
      rw [ih hrest (by simp), List.cons.injEq] at hsplit
      simp [← hsplit.1, ← hsplit.2]

/-- Cleaning leaves components alone that are no dots. -/
theorem foldl_clean_name_of_no_dots (h : ∀ n ∈ rest, n ≠ dotName ∧ n ≠ dotdotName) :
    ∀ names : List CStr,
    rest.foldl cleanName names = names ++ rest := by
  induction rest with
  | nil => exact fun names => (List.append_nil names).symm
  | cons name rest ih =>
    intro names
    obtain ⟨⟨hdot, hdotdot⟩, hrest⟩ := List.forall_mem_cons.1 h
    rw [List.foldl_cons, cleanName, if_neg hdotdot, if_neg hdot, ih hrest]
    simp

theorem cleaned_cleaned (path : CStr) : cleaned (cleaned path) = cleaned path := by
  have hnames : cleanNames (cleaned path) = cleanNames path := by
    rw [cleanNames, components_cleaned, cleanNames,
      foldl_clean_name_of_no_dots (clean_no_dots _), List.nil_append]
  rw [cleaned, hnames]
  rfl

theorem get_last_abs_path (h : ∀ n ∈ names, IsName n) (hne : names ≠ []) :
    (absPath names).getLast? ≠ some slash := by
  rcases List.eq_nil_or_concat names with rfl | ⟨init, name, rfl⟩
  · exact absurd rfl hne
  · rw [List.concat_eq_append] at h ⊢
    obtain ⟨hname, hslash⟩ := h name (by simp)
    rw [abs_path_append, List.getLast?_append_of_ne_nil _ (by simp),
      List.getLast?_cons_of_ne_nil hname]
    exact fun hlast => hslash slash (List.mem_of_getLast? hlast) rfl

/-- `wash_path` returns the absolute path of the stack of components that the fold leaves: ordinary
names are pushed, `.` is ignored, and `..` pops. The result has no empty part, no dots and no slash
at its end unless it is `/`, it is not longer than the path, and it is left alone by `wash_path`. -/
theorem wash_path_normalises {s : Kernel} {path : CStr} (habs : path.head? = some slash)
    (hlen : path.length < 128) (hshort : ∀ c ∈ components path, c.length ≤ 15) :
    ∃ out, washPath path s = .done out s ∧
      out = slash :: [slash].intercalate ((components path).foldl cleanName []) ∧
      (out = [slash] ∨ (∀ part ∈ (splitSlash out).tail, part ≠ [] ∧ part ≠ dotName ∧
        part ≠ dotdotName) ∧ out.getLast? ≠ some slash) ∧
      out.length ≤ path.length ∧ washPath out s = .done out s := by
  have hwash : ∀ path : CStr, path.head? = some slash → path.length < 128 →
      (∀ c ∈ components path, c.length < 16) → washPath path s = .done (cleaned path) s := by
    intro path habs hlen hshort
    have hspec : wp never (washPath path) s fun r last => r = cleaned path ∧ last = s :=
      wash_path_spec (.inr ⟨habs, hlen, hshort⟩)
    obtain ⟨out, last, hdone, hout, hlast⟩ := wp_never_iff.1 hspec
    rw [hdone, hout, hlast]
  have hshort' : ∀ c ∈ components path, c.length < 16 := fun c hc => Nat.lt_succ_of_le (hshort c hc)
  have hnames := clean_names_are_names path
  refine ⟨cleaned path, hwash path habs hlen hshort', abs_path_eq_intercalate _, ?_,
    length_cleaned_le habs, ?_⟩
  · by_cases hnil : cleanNames path = []
    · exact .inl (by rw [cleaned, hnil]; rfl)
    · refine .inr ⟨fun part hpart => ?_, get_last_abs_path hnames hnil⟩
      rw [cleaned, split_slash_abs_path hnames hnil] at hpart
      exact ⟨(hnames part hpart).1, clean_no_dots _ part hpart⟩
  · have hclean := hwash (cleaned path) (head_abs_path _) (length_cleaned habs hlen)
      (components_cleaned path ▸ clean_short hshort')
    rwa [cleaned_cleaned] at hclean

/-- `//a/./b/..` is cleaned to `/a`. -/
theorem wash_path_normalises_dots : ∃ out,
    washPath [slash, slash, 97, slash, 46, slash, 98, slash, 46, 46] Kernel.start =
      .done out Kernel.start ∧ out = [slash, 97] := by
  obtain ⟨out, hdone, hout, -⟩ := @wash_path_normalises Kernel.start
    [slash, slash, 97, slash, 46, slash, 98, slash, 46, 46] rfl (by decide) (by decide)
  exact ⟨out, hdone, hout.trans (by decide)⟩

end LosKernel
