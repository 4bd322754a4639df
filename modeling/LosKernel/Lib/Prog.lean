import Mathlib.Logic.Function.Basic
import Mathlib.Tactic.Common

/-!
# State-passing programs that may stop

`Prog ε σ α` is a program over a state `σ` that returns a value of type `α` or stops for a reason
in `ε`, without a final state.

The lemmas `..._run` compute a run. The weakest precondition `wp ok` says that the result
satisfies the postcondition, or the program stops for a reason in `ok`: with `any` this is partial
correctness, with `never` total correctness. `Keeps R` is a postcondition that relates the final
state to the initial one; for a reflexive and transitive `R` it is closed under every construct.
-/

namespace LosKernel

variable {p q condition : Prop}

/-- What a program did: it returned a value in a final state, or it stopped. -/
inductive Outcome (ε σ α : Type) where
  | done (value : α) (state : σ)
  | stop (reason : ε)

/-- A program over the state `σ`. -/
def Prog (ε σ α : Type) : Type := σ → Outcome ε σ α

namespace Prog

variable {ε σ α β : Type}

/-- Return a value and leave the state as it is. -/
def ret (value : α) : Prog ε σ α := fun s => .done value s

/-- Run the first program and hand its value and state to the second. -/
def andThen (first : Prog ε σ α) (second : α → Prog ε σ β) : Prog ε σ β := fun s =>
  match first s with
  | .done value next => second value next
  | .stop reason => .stop reason

instance : Monad (Prog ε σ) where
  pure := ret
  bind := andThen

/-- Stop the program. -/
def halt (reason : ε) : Prog ε σ α := fun _ => .stop reason

/-- Read the state. -/
def state : Prog ε σ σ := fun s => .done s s

/-- Change the state. -/
def update (change : σ → σ) : Prog ε σ Unit := fun s => .done () (change s)

/-- Continue only when the condition holds. -/
def guard (condition : Bool) (reason : ε) : Prog ε σ Unit :=
  if condition then ret () else halt reason

/-- Run a program only when the condition holds. -/
def when (condition : Prop) [Decidable condition] (body : Prog ε σ Unit) : Prog ε σ Unit :=
  if condition then body else ret ()

/-! ## Running the constructors -/

@[simp] theorem pure_run (value : α) (s : σ) : (pure value : Prog ε σ α) s = .done value s := rfl

@[simp] theorem state_run (s : σ) : (state : Prog ε σ σ) s = .done s s := rfl

@[simp] theorem update_run (change : σ → σ) (s : σ) :
    (update change : Prog ε σ Unit) s = .done () (change s) := rfl

@[simp] theorem halt_run (reason : ε) (s : σ) : (halt reason : Prog ε σ α) s = .stop reason := rfl

theorem bind_run (first : Prog ε σ α) (second : α → Prog ε σ β) (s : σ) : (first >>= second) s =
      match first s with
      | .done value next => second value next
      | .stop reason => .stop reason := rfl

@[simp] theorem ite_run (condition : Prop) [Decidable condition] (first second : Prog ε σ α)
    (s : σ) : (if condition then first else second) s =
      if condition then first s else second s := by
  split <;> rfl

theorem guard_run (condition : Bool) (reason : ε) (s : σ) :
    (guard condition reason : Prog ε σ Unit) s =
      if condition then .done () s else .stop reason := by
  cases condition <;> rfl

@[simp] theorem guard_true (reason : ε) (s : σ) :
    (guard true reason : Prog ε σ Unit) s = .done () s := rfl

@[simp] theorem guard_false (reason : ε) (s : σ) :
    (guard false reason : Prog ε σ Unit) s = .stop reason := rfl

/-! ## Weakest preconditions -/

/-- Every reason to stop is accepted. -/
def any : ε → Prop := fun _ => True

/-- No reason to stop is accepted. -/
def never : ε → Prop := fun _ => False

/-- Run from `s`, the program returns a value and a state in `Q`, or stops for a reason in `ok`. -/
def wp (ok : ε → Prop) (m : Prog ε σ α) (s : σ) (Q : α → σ → Prop) : Prop :=
  match m s with
  | .done value last => Q value last
  | .stop reason => ok reason

@[simp] theorem any_apply (reason : ε) : any reason = True := rfl

@[simp] theorem never_apply (reason : ε) : never reason = False := rfl

/-! The conditions that the rules below leave, where it is known which one applies. -/

theorem and_any {reason : ε} : (p ∧ (q → any reason)) ↔ p := by simp

theorem of_some {a : α} {p : α → Prop} :
    ((∀ x, some a = some x → p x) ∧ (some a = none → q)) ↔ p a := by simp

theorem of_true : ((True → p) ∧ (true = false → q)) ↔ p := by simp

variable {ok : ε → Prop} {s : σ} {Q : α → σ → Prop}

instance : DecidablePred (never : ε → Prop) := fun _ => .isFalse id

/-- A specification whose conditions are decidable can be evaluated on a state. -/
instance [DecidablePred ok] [∀ value last, Decidable (Q value last)] {m : Prog ε σ α} :
    Decidable (wp ok m s Q) := by
  unfold wp
  exact match m s with
    | .done value last => inferInstanceAs (Decidable (Q value last))
    | .stop reason => inferInstanceAs (Decidable (ok reason))

/-- Partial correctness speaks about the runs that return. -/
theorem wp_any_iff {m : Prog ε σ α} :
    wp any m s Q ↔ ∀ value last, m s = .done value last → Q value last := by
  unfold wp
  cases m s with
  | done value last => simp
  | stop reason => simp

/-- Total correctness says that the program returns. -/
theorem wp_never_iff {m : Prog ε σ α} :
    wp never m s Q ↔ ∃ value last, m s = .done value last ∧ Q value last := by
  unfold wp
  cases m s with
  | done value last => simp
  | stop reason => simp

theorem wp_of_done {m : Prog ε σ α} {value : α} {last : σ} (h : m s = .done value last) :
    wp ok m s Q ↔ Q value last := by
  simp [wp, h]

theorem wp_of_stop {m : Prog ε σ α} {reason : ε} (h : m s = .stop reason) :
    wp ok m s Q ↔ ok reason := by
  simp [wp, h]

/-- The rule of consequence. -/
theorem wp_mono {m : Prog ε σ α} {P : α → σ → Prop} (h : wp ok m s P)
    (himp : ∀ value last, P value last → Q value last) : wp ok m s Q := by
  unfold wp at *
  cases hm : m s with
  | done value last =>
    rw [hm] at h
    exact himp value last h
  | stop reason =>
    rw [hm] at h
    exact h

theorem wp_any_of_forall {m : Prog ε σ α} (h : ∀ value last, Q value last) : wp any m s Q :=
  wp_any_iff.mpr fun value last _ => h value last

instance decidableNever : DecidablePred (never : ε → Prop) :=
    fun _ => inferInstanceAs (Decidable False)

instance decidableAny : DecidablePred (any : ε → Prop) := fun _ => inferInstanceAs (Decidable True)

/-- What a program does from a given state can be computed. -/
instance decidableWp {m : Prog ε σ α} [DecidablePred ok]
    [∀ value last, Decidable (Q value last)] : Decidable (wp ok m s Q) :=
  match h : m s with
  | .done value last => decidable_of_iff (Q value last) (wp_of_done h).symm
  | .stop reason => decidable_of_iff (ok reason) (wp_of_stop h).symm

theorem wp_and {m : Prog ε σ α} {P : α → σ → Prop} (hp : wp ok m s P) (hq : wp ok m s Q) :
    wp ok m s fun value last => P value last ∧ Q value last := by
  unfold wp at *
  cases hm : m s with
  | done value last => simp_all
  | stop reason => simp_all

/-- No run satisfies two specifications that exclude each other. -/
theorem wp_absurd {ok' : ε → Prop} {m : Prog ε σ α} {P : α → σ → Prop} (hp : wp ok m s P)
    (hq : wp ok' m s Q) (hstop : ∀ reason, ok reason → ¬ok' reason)
    (hdone : ∀ value last, P value last → ¬Q value last) : False := by
  unfold wp at *
  cases hm : m s with
  | done value last =>
    rw [hm] at hp hq
    exact hdone value last hp hq
  | stop reason =>
    rw [hm] at hp hq
    exact hstop reason hp hq

/-- A program also satisfies what is known of it if it returns. -/
theorem wp_and_any {m : Prog ε σ α} {P : α → σ → Prop} (hp : wp ok m s P) (hq : wp any m s Q) :
    wp ok m s fun value last => P value last ∧ Q value last := by
  unfold wp at *
  cases hm : m s with
  | done value last =>
    rw [hm] at hp hq
    exact ⟨hp, hq⟩
  | stop reason =>
    rw [hm] at hp
    exact hp

/-- A program that returns needs no reason to stop. -/
theorem wp_of_never {m : Prog ε σ α} (h : wp never m s Q) : wp ok m s Q := by
  obtain ⟨value, last, hdone, hQ⟩ := wp_never_iff.1 h
  exact (wp_of_done hdone).2 hQ

@[simp] theorem wp_pure (value : α) : wp ok (pure value) s Q ↔ Q value s := Iff.rfl

@[simp] theorem wp_bind {first : Prog ε σ β} {second : β → Prog ε σ α} :
    wp ok (first >>= second) s Q ↔ wp ok first s fun value next => wp ok (second value) next Q := by
  simp only [wp, bind_run]
  cases first s <;> rfl

/-- The second part starts from what the first one is known to leave. -/
theorem wp_seq {first : Prog ε σ β} {second : β → Prog ε σ α} {P : β → σ → Prop}
    (hfirst : wp ok first s P)
    (hsecond : ∀ value next, P value next → wp ok (second value) next Q) :
    wp ok (first >>= second) s Q :=
  wp_bind.2 (wp_mono hfirst hsecond)

@[simp] theorem wp_state {Q : σ → σ → Prop} : wp ok state s Q ↔ Q s s := Iff.rfl

@[simp] theorem wp_update {change : σ → σ} {Q : Unit → σ → Prop} :
    wp ok (update change) s Q ↔ Q () (change s) := Iff.rfl

@[simp] theorem wp_halt {reason : ε} : wp ok (halt reason) s Q ↔ ok reason := Iff.rfl

@[simp] theorem wp_guard {condition : Bool} {reason : ε} {Q : Unit → σ → Prop} :
    wp ok (guard condition reason) s Q ↔
      (condition = true → Q () s) ∧ (condition = false → ok reason) := by
  cases condition <;> simp [wp]

theorem wp_ite [Decidable condition] {first second : Prog ε σ α} :
    wp ok (if condition then first else second) s Q ↔
      (condition → wp ok first s Q) ∧ (¬condition → wp ok second s Q) := by
  by_cases h : condition <;> simp [h]

theorem wp_when [Decidable condition] {body : Prog ε σ Unit} {Q : Unit → σ → Prop} :
    wp ok (when condition body) s Q ↔
      (condition → wp ok body s Q) ∧ (¬condition → Q () s) := by
  exact wp_ite

/-! ## Relations between the initial and the final state -/

/-- Every run that returns relates its initial to its final state. -/
def Keeps (R : σ → σ → Prop) (m : Prog ε σ α) : Prop := ∀ s, wp any m s fun _ last => R s last

section

variable {R : σ → σ → Prop}

theorem Keeps.pure [Std.Refl R] (value : α) : Keeps R (Pure.pure value : Prog ε σ α) :=
  fun s => Std.Refl.refl (r := R) s

theorem Keeps.state [Std.Refl R] : Keeps R (state : Prog ε σ σ) :=
  fun s => Std.Refl.refl (r := R) s

theorem Keeps.halt (reason : ε) : Keeps R (halt reason : Prog ε σ α) := fun _ => trivial

theorem Keeps.guard [Std.Refl R] (condition : Bool) (reason : ε) :
    Keeps R (guard condition reason : Prog ε σ Unit) := by
  intro s
  simp [Std.Refl.refl s]

theorem Keeps.bind [IsTrans σ R] {first : Prog ε σ β} {second : β → Prog ε σ α}
    (hfirst : Keeps R first) (hsecond : ∀ value, Keeps R (second value)) :
    Keeps R (first >>= second) := by
  intro s
  refine wp_seq (hfirst s) fun value next hnext => ?_
  exact wp_mono (hsecond value next) fun _ last hlast => IsTrans.trans _ _ _ hnext hlast

theorem Keeps.ite [Decidable condition] {first second : Prog ε σ α} (hfirst : Keeps R first)
    (hsecond : Keeps R second) :
    Keeps R (if condition then first else second) := by
  split
  · exact hfirst
  · exact hsecond

theorem Keeps.when [Std.Refl R] [Decidable condition] {body : Prog ε σ Unit}
    (hbody : Keeps R body) : Keeps R (when condition body) :=
  Keeps.ite hbody (Keeps.pure ())

end

end Prog
end LosKernel
