import LosKernel.Fs.DirListing
import LosKernel.Shell.Commands

/-!
# Name buffers

`path_parse` copies a component without a bound, into buffers of 16 bytes of its callers. The
model has the number of bytes of a name that the buffer takes as a parameter: a function writes at
most 15 bytes of each name exactly when a buffer for 15 makes no difference to it. `names_fit_iff`
says for which paths this holds, and for which the names that `create_dir_entry` stores are found
again.
-/

namespace LosKernel

open Prog

variable {name : CStr} {s : Kernel} {subPath : Option CStr} {b : Bytes}
  {room room' spare spare' : Nat}

/-! ## Buffers that make no difference -/

theorem rooms_next (hname : name ≠ [])
    (h : ∀ c ∈ parsed subPath name, c.length ≤ room ∧ c.length ≤ room') :
    ∀ c ∈ parsed (parseNext subPath).1 (parseNext subPath).2,
      c.length ≤ room ∧ c.length ≤ room' := by
  rw [parsed_next]
  rw [parsed, if_neg hname] at h
  exact fun c hc => h c (List.mem_cons_of_mem _ hc)

theorem depth_loop_congr (fuel : Nat) : ∀ p name,
    (∀ c ∈ parsed p name, c.length ≤ room ∧ c.length ≤ room') →
    depthLoop room fuel p name = depthLoop room' fuel p name := by
  induction fuel with
  | zero => exact fun _ _ _ => rfl
  | succ fuel ih =>
    intro p name h
    have hroom := parsed_name_short fun c hc => (h c hc).1
    have hroom' := parsed_name_short fun c hc => (h c hc).2
    simp only [depthLoop, hroom, hroom']
    by_cases hname : name = []
    · simp only [hname, if_true]
    · simp only [ih _ _ (rooms_next hname h)]

theorem wash_loop_congr (fuel : Nat) : ∀ subPath name newAbsPath,
    (∀ c ∈ parsed subPath name, c.length ≤ room ∧ c.length ≤ room') →
    washLoop room fuel subPath name newAbsPath = washLoop room' fuel subPath name newAbsPath := by
  induction fuel with
  | zero => exact fun _ _ _ _ => rfl
  | succ fuel ih =>
    intro subPath name newAbsPath h
    have hroom := parsed_name_short fun c hc => (h c hc).1
    have hroom' := parsed_name_short fun c hc => (h c hc).2
    simp only [washLoop, Nat.lt_succ_of_le hroom, Nat.lt_succ_of_le hroom']
    by_cases hname : name = []
    · simp only [hname, if_true]
    · simp only [ih _ _ _ (rooms_next hname h)]

theorem search_loop_congr (hspare : room ≤ spare) (hspare' : room' ≤ spare') (fuel : Nat) :
    ∀ subPath name searchedPath parentDir parentInodeNo last,
    (∀ c ∈ parsed subPath name, c.length ≤ room ∧ c.length ≤ room') →
    searchLoop room spare fuel subPath name searchedPath parentDir parentInodeNo last =
      searchLoop room' spare' fuel subPath name searchedPath parentDir parentInodeNo last := by
  induction fuel with
  | zero => exact fun _ _ _ _ _ _ _ => rfl
  | succ fuel ih =>
    intro subPath name searchedPath parentDir parentInodeNo last h
    have hroom := parsed_name_short fun c hc => (h c hc).1
    have hroom' := parsed_name_short fun c hc => (h c hc).2
    simp only [searchLoop, Nat.lt_succ_of_le hroom, Nat.lt_succ_of_le hroom']
    by_cases hname : name = []
    · simp only [hname, if_true]
    · have hnext := rooms_next hname h
      have hfill := parsed_name_short fun c hc => (hnext c hc).1
      have hfill' := parsed_name_short fun c hc => (hnext c hc).2
      simp only [hfill.trans hspare, hfill'.trans hspare', ih _ _ _ _ _ _ hnext]

/-! ## Entries -/

theorem cstr_at_padded (hname : 0 ∉ name) :
    ∀ {off limit : Nat}, name.length < limit → (∀ i < limit, b (off + i) = name.getD i 0) →
      cstrAt b off limit = name := by
  induction name with
  | nil =>
    intro off limit hlt hb
    obtain ⟨rest, rfl⟩ : ∃ rest, limit = rest + 1 := ⟨limit - 1, by simp at hlt; omega⟩
    have hzero : b off = 0 := hb 0 (by omega)
    rw [cstrAt, if_pos hzero]
  | cons c name ih =>
    intro off limit hlt hb
    obtain ⟨rest, rfl⟩ : ∃ rest, limit = rest + 1 := ⟨limit - 1, by simp at hlt; omega⟩
    obtain ⟨hc, hrest⟩ : 0 ≠ c ∧ 0 ∉ name := by simpa using hname
    have hfirst : b off = c := hb 0 (by omega)
    rw [cstrAt, if_neg (hfirst ▸ hc.symm), hfirst]
    refine congrArg (c :: ·) (ih hrest (by simpa using hlt) fun i hi => ?_)
    rw [show off + 1 + i = off + (i + 1) by omega, hb (i + 1) (by omega)]
    rfl

theorem create_dir_entry_eq {inodeNo : UInt32} {fileType : FileType} {last : Kernel} {e : DirEntry}
    (h : createDirEntry name inodeNo fileType s = .done e last) :
    e = { filename := fun k => name.getD k.val 0, iNo := inodeNo, fType := fileType.code } := by
  have hspec : wp any (createDirEntry name inodeNo fileType) s fun e _ =>
      e = { filename := fun k => name.getD k.val 0, iNo := inodeNo, fType := fileType.code } := by
    simp [createDirEntry]
  exact wp_any_iff.1 hspec e last h

/-- A slot that holds an entry with a name of at most 15 characters reads as the name. -/
theorem slot_name_created {j : Nat} (hj : j < 21) (hname : 0 ∉ name) (hlen : name.length < 16)
    (hslot : (DirEntry.ofBlock b j).filename = fun k => name.getD k.val 0) : slotName b
    j = name := by
  have hbytes : ∀ i < 16, b (24 * j + i) = name.getD i 0 :=
    fun i hi => congrFun hslot ⟨i, hi⟩
  have hend : ∃ i < 16, b (24 * j + i) = 0 :=
    ⟨name.length, hlen, by rw [hbytes _ hlen]; simp⟩
  calc slotName b j = cstrAt b (24 * j) 16 :=
        cstr_at_limit (by omega) (fun _ _ => rfl) hend
    _ = name := cstr_at_padded hname hlen hbytes

/-! ## Names and buffers -/

/-- The names of a path fit their buffers: the functions that split the path write at most 15 bytes
of a name, an entry that is created keeps a zero behind its name, and a name that is stored is found
again. -/
structure NamesFit (path : CStr) : Prop where
  depth : ∀ s, pathDepthCntIn 15 path s = pathDepthCntIn maxPathLen path s
  search : ∀ s, searchFileIn 15 15 path s = searchFileIn maxPathLen maxPathLen path s
  wash : ∀ s, washPathIn 15 path s = washPathIn maxPathLen path s
  entry : ∀ name ∈ components path, ∀ inodeNo fileType s e last,
    createDirEntry name inodeNo fileType s = .done e last →
      name.length < maxFileNameLen ∧ ∀ k : Fin 16, name.length ≤ k.val → e.filename k = 0
  again : ∀ name ∈ components path, ∀ inodeNo fileType s e last,
    createDirEntry name inodeNo fileType s = .done e last →
      ∀ cur inode k j, cur.part.sb.dirEntrySize = 24 → k < 140 → blocksOf cur.disk inode k ≠ 0 →
        j < 21 → DirEntry.ofBlock (sectorAt cur.disk (blocksOf cur.disk inode k).toNat) j = e →
        (lookupEntry cur inode name).isSome

theorem length_lt_path_length {names : List CStr} (h : name ∈ names) :
    name.length < pathLength names := by
  induction names with
  | nil => exact absurd h (by simp)
  | cons first names ih =>
    simp only [pathLength, List.map_cons, List.sum_cons] at ih ⊢
    rcases List.mem_cons.1 h with rfl | hrest
    · omega
    · have := ih hrest
      omega

/-- The characters of the components are characters of the path. -/
theorem mem_of_mem_component {path : CStr} {c : UInt8} (hname : name ∈ components path)
    (hc : c ∈ name) : c ∈ path := by
  have hsplit : ∀ part ∈ splitSlash path, ∀ c ∈ part, c ∈ path := by
    clear hname
    induction path with
    | nil => simp [splitSlash]
    | cons d ds ih =>
      obtain ⟨part, parts, hds⟩ := List.exists_cons_of_ne_nil (split_slash_ne_nil ds)
      by_cases hd : d = slash
      · simp only [splitSlash, if_pos hd, List.forall_mem_cons]
        exact ⟨by simp, fun p hp c hc => List.mem_cons_of_mem _ (ih p hp c hc)⟩
      · simp only [splitSlash, if_neg hd, hds, List.forall_mem_cons] at ih ⊢
        exact ⟨⟨List.mem_cons_self, fun c hc => List.mem_cons_of_mem _ (ih.1 c hc)⟩,
          fun p hp c hc => List.mem_cons_of_mem _ (ih.2 p hp c hc)⟩
  exact hsplit name (List.mem_filter.1 hname).1 c hc

/-- The names of a path fit their buffers exactly when every component has at most 15
characters. -/
theorem names_fit_iff {path : CStr} (habs : path.head? = some slash)
    (hlen : path.length < maxPathLen) (hstr : 0 ∉ path) :
    NamesFit path ↔ ∀ c ∈ components path, c.length < maxFileNameLen := by
  have hbound : ∀ c ∈ components path, c.length ≤ maxPathLen := by
    intro c hc
    have h1 := length_lt_path_length hc
    have h2 := path_length_components_abs habs
    omega
  constructor
  · intro h c hc
    -- with room for every component the path is counted, so it is counted with room for 15 bytes
    have hcounted : wp never (pathDepthCntIn maxPathLen path) Kernel.start _ :=
      path_depth_cnt_in_spec (.inr ⟨habs, List.ne_nil_of_mem hc, hbound⟩)
    obtain ⟨depth, last, hdone, -⟩ := wp_never_iff.1 hcounted
    have hfits : wp any (pathDepthCntIn 15 path) Kernel.start _ :=
      path_depth_cnt_in_spec (.inl fun _ => trivial)
    rw [← h.depth Kernel.start] at hdone
    exact Nat.lt_succ_of_le (((wp_of_done hdone).1 hfits).2.2.2 c hc)
  · intro h
    have hrooms : ∀ c ∈ parsed (pathParse path).1 (pathParse path).2,
        c.length ≤ 15 ∧ c.length ≤ maxPathLen := by
      rw [parsed_path_parse]
      exact fun c hc => ⟨Nat.le_of_lt_succ (h c hc), hbound c hc⟩
    refine ⟨fun s => ?_, fun s => ?_, fun s => ?_, ?_, ?_⟩
    · rw [pathDepthCntIn, pathDepthCntIn, depth_loop_congr _ _ _ hrooms]
    · simp only [searchFileIn, search_loop_congr le_rfl le_rfl _ _ _ _ _ _ _ hrooms]
    · rw [washPathIn, washPathIn, wash_loop_congr _ _ _ _ hrooms]
    · intro name hname inodeNo fileType s e last hcreate
      rw [create_dir_entry_eq hcreate]
      refine ⟨h name hname, fun k hk => ?_⟩
      simp [List.getElem?_eq_none hk]
    · intro name hname inodeNo fileType s e last hcreate cur inode k j hsize hk hused hj hslot
      rw [Option.isSome_iff_ne_none]
      intro hnone
      refine lookup_entry_none hnone e ⟨k, hk, hused, j, ?_, ?_, hslot⟩
      · simpa [dirEntrysPerSec, hsize] using hj
      · refine slot_name_created hj (fun hzero => hstr (mem_of_mem_component hname hzero))
          (h name hname) ?_
        rw [hslot, create_dir_entry_eq hcreate]

theorem names_fit_one_letter : NamesFit [slash, 97] :=
  (names_fit_iff rfl (by decide) (by decide)).2 (by decide)

/-- A component of 17 characters overruns the buffer of `path_depth_cnt`. One of 16 characters is
stored without a zero, and its slot reads as a longer name. -/
theorem long_name_overruns_and_is_lost :
    pathDepthCnt (slash :: List.replicate 17 97) Kernel.start = .stop .badAccess ∧
      ∃ e last, createDirEntry (List.replicate 16 97) 7 .regular Kernel.start = .done e last ∧
      (∀ k, e.filename k ≠ 0) ∧ slotName (Bytes.blit (fun _ => 0) 0 e.bytes dirEntrySize) 0 =
      List.replicate 16 97 ++ [7] := by
  refine ⟨rfl, _, _, rfl, ?_, ?_⟩
  · decide
  · decide +kernel

end LosKernel
