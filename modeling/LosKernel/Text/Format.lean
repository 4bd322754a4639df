import LosKernel.Text.Numbers

/-!
# Formatted output

`vsprintf` of `lib/stdio.c` copies the format to the buffer and puts the arguments in. Only `%s`,
which uses `strcpy`, stores a terminating zero; the length is then read from the buffer. -/

namespace LosKernel.Text

open Function (update)

variable {buf : Bytes} {p size : Nat}

/-- An argument: a pointer to a string, or a word. -/
inductive Arg where
  | str (text : CStr)
  | word (w : UInt32)

/-- A word as a signed number. -/
def signed (w : UInt32) : Int := if w.toNat < 2 ^ 31 then w.toNat else w.toNat - 2 ^ 32

/-- The cases of the `switch`, for an argument of the type that is read. -/
def convert (conversion : UInt8) (out : Bytes × Nat) : Arg → Option (Bytes × Nat)
  | .str text =>
    if conversion = 0x73 then some (put out.1 out.2 (text ++ [0]), out.2 + text.length) else none
  | .word w =>
    if conversion = 0x63 then some (update out.1 out.2 w.toUInt8, out.2 + 1)
    else if conversion = 0x64 then
      if signed w < 0 then itoa 10 32 (0 - w).toNat (update out.1 out.2 0x2d, out.2 + 1)
      else itoa 10 32 w.toNat out
    else if conversion = 0x78 then itoa 16 32 w.toNat out
    else none

/-- The loop of `vsprintf`. A character after `%` that is no conversion is looked at again. -/
def vsprintfLoop : CStr → List Arg → Bytes × Nat → Option (Bytes × Nat)
  | [], _, out => some out
  | [c], _, out => some (if c ≠ 0x25 then (update out.1 out.2 c, out.2 + 1) else out)
  | c :: conversion :: rest, args, out =>
    if c ≠ 0x25 then vsprintfLoop (conversion :: rest) args (update out.1 out.2 c, out.2 + 1)
    else if conversion ∈ [0x73, 0x63, 0x64, 0x78] then
      match args with
      | [] => none
      | arg :: args => do vsprintfLoop rest args (← convert conversion out arg)
    else vsprintfLoop (conversion :: rest) args out

/-- `strlen` of what starts at `i` in a buffer of which `size` bytes are left. -/
def strlen (buf : Bytes) : Nat → Nat → Option Nat
  | 0, _ => none
  | size + 1, i => if buf i = 0 then some i else strlen buf size (i + 1)

/-- `vsprintf`: the length it returns and the buffer of `size` bytes. -/
def vsprintf (size : Nat) (format : CStr) (args : List Arg) (buf : Bytes) :
    Option (Nat × Bytes) := do
  let out ← vsprintfLoop format args (buf, 0)
  pure (← strlen out.1 size 0, out.1)

/-- A part of a format, with its argument. -/
inductive Item where
  | lit (c : UInt8)
  | str (text : CStr)
  | chr (w : UInt32)
  | dec (w : UInt32)
  | hex (w : UInt32)

variable {item : Item} {items : List Item}

namespace Item

/-- The characters in the format. -/
@[simp] def format : Item → CStr
  | .lit c => [c]
  | .str _ => [0x25, 0x73]
  | .chr _ => [0x25, 0x63]
  | .dec _ => [0x25, 0x64]
  | .hex _ => [0x25, 0x78]

/-- The argument that is read. -/
@[simp] def args : Item → List Arg
  | .lit _ => []
  | .str text => [.str text]
  | .chr w | .dec w | .hex w => [.word w]

/-- A number with its sign. -/
def decimal (n : Int) : CStr :=
  (if n < 0 then [0x2d] else []) ++ (numeral 10 n.natAbs).map upper

/-- What is to be printed. -/
@[simp] def text : Item → CStr
  | .lit c => [c]
  | .str text => text
  | .chr w => [w.toUInt8]
  | .dec w => decimal (signed w)
  | .hex w => (numeral 16 w.toNat).map upper

/-- What is stored behind the text. -/
@[simp] def terminator : Item → CStr
  | .str _ => [0]
  | _ => []

/-- No character is zero, and `%` does not stand for itself. -/
def Ok : Item → Prop
  | .lit c => c ≠ 0 ∧ c ≠ 0x25
  | .str text => 0 ∉ text
  | .chr w => w.toUInt8 ≠ 0
  | .dec _ | .hex _ => True

end Item

open Item (decimal)

/-- The text of a whole format. -/
def render (items : List Item) : CStr := items.flatMap Item.text

/-- What is stored behind it. -/
def ending : List Item → CStr
  | [] => []
  | [item] => item.terminator
  | _ :: rest => ending rest

/-- `vsprintf` stores the text with a zero behind it, nothing else, and returns its length. -/
def Renders (size : Nat) (items : List Item) (buf : Bytes) : Prop :=
  vsprintf size (items.flatMap Item.format) (items.flatMap Item.args) buf =
    some ((render items).length, put buf 0 (render items ++ [0]))

theorem numeral_ne_nil (base n : Nat) : numeral base n ≠ [] := by
  unfold numeral
  split <;> simp [*, Nat.digits_ne_nil_iff_ne_zero]

theorem numeral_ok {base : Nat} (hbase : 1 < base) (hle : base ≤ 16) (n : Nat) :
    0 ∉ (numeral base n).map upper := by
  have hupper : ∀ d < 16, upper d ≠ 0 := by decide
  intro hmem
  obtain ⟨d, hd, hzero⟩ := List.mem_map.1 hmem
  exact hupper d ((numeral_lt hbase d hd).trans_le hle) hzero

theorem text_ok (h : item.Ok) : 0 ∉ item.text := by
  cases item with
  | lit c => simpa using h.1.symm
  | str => exact h
  | chr w => simpa using Ne.symm h
  | dec w =>
    refine fun hmem => (List.mem_append.1 hmem).elim ?_ (numeral_ok (by decide) (by decide) _)
    split <;> simp
  | hex w => exact numeral_ok (by decide) (by decide) _

theorem natAbs_signed (w : UInt32) :
    (signed w).natAbs = if signed w < 0 then (0 - w).toNat else w.toNat := by
  have hlt := w.toNat_lt
  rw [UInt32.toNat_sub, UInt32.toNat_zero]
  unfold signed
  split_ifs <;> omega

theorem convert_dec (w : UInt32) : convert 0x64 (buf, p) (.word w) =
    some (put buf p (decimal (signed w)), p + (decimal (signed w)).length) := by
  have habs := natAbs_signed w
  rw [convert, if_neg (by decide), if_pos rfl, decimal]
  by_cases hneg : signed w < 0
  · have hput := @put_put p buf [0x2d] [] ((numeral 10 (0 - w).toNat).map upper) (Nat.zero_le _)
    rw [if_pos hneg] at habs
    rw [if_pos hneg, if_pos hneg, itoa_word (.inl rfl), update_eq_put, habs]
    simpa [Nat.add_assoc, Nat.add_comm] using hput
  · rw [if_neg hneg] at habs
    simp [hneg, itoa_word, habs]

theorem loop_item (h : item.Ok) (rest : CStr) (args : List Arg) :
    vsprintfLoop (item.format ++ rest) (item.args ++ args) (buf, p) =
      vsprintfLoop rest args (put buf p (item.text ++ item.terminator), p + item.text.length) := by
  cases item with
  | lit c => cases rest <;> simp [vsprintfLoop, h.2, update_eq_put]
  | str text => simp [vsprintfLoop, convert]
  | chr w => simp [vsprintfLoop, convert, update_eq_put]
  | hex w => simp [vsprintfLoop, convert, itoa_word]
  | dec w => simp [vsprintfLoop, convert_dec]

/-- Only a string can have no characters, and it has a terminating zero. -/
theorem stored_ne_nil (h : items ≠ []) : render items ++ ending items ≠ [] := by
  induction items with
  | nil => exact absurd rfl h
  | cons item rest ih =>
    cases rest with
    | nil => cases item <;> simp [render, ending, decimal, numeral_ne_nil]
    | cons next rest =>
      have hrest := ih (List.cons_ne_nil _ _)
      simp only [render, List.flatMap_cons, ending, List.append_assoc] at hrest ⊢
      exact List.append_ne_nil_of_right_ne_nil _ hrest

theorem ending_cases (items : List Item) : ending items = [] ∨ ending items = [0] := by
  fun_induction ending items with
  | case1 => exact .inl rfl
  | case2 item => cases item <;> simp
  | case3 _ rest _ ih => exact ih

theorem loop_eq (h : ∀ item ∈ items, item.Ok) :
    vsprintfLoop (items.flatMap Item.format) (items.flatMap Item.args) (buf, p) =
      some (put buf p (render items ++ ending items), p + (render items).length) := by
  induction items generalizing buf p with
  | nil =>
    have hnil : put buf p [] = buf := funext fun i => by simp [put]
    simp [render, ending, vsprintfLoop, hnil]
  | cons item rest ih =>
    obtain ⟨hitem, hrest⟩ := List.forall_mem_cons.1 h
    rw [List.flatMap_cons, List.flatMap_cons, loop_item hitem]
    cases rest with
    | nil => simp [render, ending, vsprintfLoop]
    | cons next rest =>
      have hone : item.terminator.length ≤ (render (next :: rest) ++
          ending (next :: rest)).length := by
        have hpos := List.length_pos_iff.2 (stored_ne_nil (List.cons_ne_nil next rest))
        cases item <;> first | exact Nat.zero_le _ | exact hpos
      rw [ih hrest, put_put hone]
      simp [render, ending, Nat.add_assoc]

theorem strlen_eq {n i : Nat} (hne : ∀ j, i ≤ j → j < n → buf j ≠ 0) (hend : buf n = 0)
    (hle : i ≤ n) (hsize : n < i + size) : strlen buf size i = some n := by
  induction size generalizing i with
  | zero => omega
  | succ size ih =>
    rw [strlen]
    rcases Nat.lt_or_eq_of_le hle with hlt | rfl
    · rw [if_neg (hne i le_rfl hlt)]
      exact ih (fun j hj => hne j (by omega)) hlt (by omega)
    · rw [if_pos hend]

/-- The text is complete if and only if the format ends with `%s` or the buffer has a zero already
behind the text. -/
theorem renders_iff (hok : ∀ item ∈ items, item.Ok) (hsize : (render items).length < size)
    (buf : Bytes) :
    Renders size items buf ↔ ending items = [0] ∨ buf (render items).length = 0 := by
  have hstored : put buf 0 (render items ++ ending items) = put buf 0 (render items ++ [0]) ↔
      ending items = [0] ∨ buf (render items).length = 0 := by
    refine ⟨fun h => ?_, fun h => ?_⟩
    · have hlast := congrFun h (render items).length
      rcases ending_cases items with hnil | hzero
      · right
        simpa [put, hnil] using hlast
      · exact .inl hzero
    · rcases ending_cases items with hnil | hzero
      · funext i
        simp only [put, hnil, List.getD_eq_getElem?_getD, List.getElem?_append]
        grind
      · rw [hzero]
  have hlen : strlen (put buf 0 (render items ++ [0])) size 0 = some (render items).length := by
    have hzero : 0 ∉ render items := by
      intro hmem
      obtain ⟨item, hitem, hin⟩ := List.mem_flatMap.1 hmem
      exact text_ok (hok item hitem) hin
    refine strlen_eq (fun j _ hj heq => hzero ?_) (by simp [put]) (Nat.zero_le _) (by omega)
    simp only [put, Nat.zero_le, if_true, Nat.sub_zero, List.getD_eq_getElem?_getD,
      List.getElem?_append_left hj, List.getElem?_eq_getElem hj, Option.getD_some] at heq
    exact heq ▸ List.getElem_mem hj
  rw [Renders, vsprintf, loop_eq hok, ← hstored]
  constructor
  · intro h
    cases hstr : strlen (put buf 0 (render items ++ ending items)) size 0 with
    | none => simp [hstr] at h
    | some n =>
      simp only [Option.bind_eq_bind, Option.bind_some, hstr] at h
      exact congrArg Prod.snd (Option.some.inj h)
  · intro h
    simp [h, hlen]

theorem renders_string : Renders 8 [.lit 0x61, .str [0x62]] fun _ => 0xff :=
  (renders_iff (by simp [Item.Ok]) (by decide) _).2 (.inl rfl)

/-- A number at the end of the format, in a buffer that was not cleared. -/
theorem not_renders_number : ¬Renders 8 [.dec 5] fun _ => 0xff :=
  fun h => absurd (congrArg Option.isNone h) (by decide)

end LosKernel.Text
