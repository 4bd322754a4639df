import Mathlib.Logic.Relation
import LosKernel.Lib.Prog

/-!
# Systems of guarded actions

An action of a `System` is enabled in some states, and executing it is a program over the state.
`System.Run cond` relates a state to those that a sequence of enabled actions reaches, each of
which meets `cond` when it is taken. `Prog.zoom` makes a program over a part of the state one over
the whole.
-/

namespace LosKernel

namespace Prog

variable {ε σ τ α : Type}

/-- Run a program on a part of the state. -/
def zoom (get : τ → σ) (put : σ → τ → τ) (m : Prog ε σ α) : Prog ε τ α := fun t =>
  match m (get t) with
  | .done value s => .done value (put s t)
  | .stop reason => .stop reason

@[simp] theorem wp_zoom {ok : ε → Prop} {get : τ → σ} {put : σ → τ → τ} {m : Prog ε σ α} {t : τ}
    {Q : α → τ → Prop} :
    wp ok (zoom get put m) t Q ↔ wp ok m (get t) fun value s => Q value (put s t) := by
  unfold wp zoom
  cases m (get t) <;> rfl

end Prog

/-- A system of actions, each with the states in which it can be taken and what it does. -/
structure System (ε σ α : Type) where
  Enabled : σ → α → Prop
  exec : α → Prog ε σ Unit

namespace System

variable {ε σ α : Type} (m : System ε σ α)

/-- An enabled action that meets `cond` is taken, and it returns. -/
def Step (cond : σ → α → Prop) (s last : σ) : Prop :=
  ∃ a, m.Enabled s a ∧ cond s a ∧ m.exec a s = .done () last

/-- A run whose actions all meet `cond`. -/
abbrev Run (cond : σ → α → Prop) : σ → σ → Prop := Relation.ReflTransGen (m.Step cond)

variable {m} {cond : σ → α → Prop} {s last : σ}

/-- What every action preserves holds in every state of a run. -/
theorem Run.invariant {I : σ → Prop} (hstep : ∀ s a, I s → m.Enabled s a → cond s a →
      Prog.wp Prog.any (m.exec a) s fun _ last => I last)
    (hrun : m.Run cond s last) (hs : I s) : I last := by
  induction hrun with
  | refl => exact hs
  | tail _ hnext ih =>
    obtain ⟨a, henabled, hcond, hdone⟩ := hnext
    exact Prog.wp_any_iff.1 (hstep _ a ih henabled hcond) _ _ hdone

/-! ## Following a list of actions -/

section

variable (m) in
/-- The state that a list of actions leads to, if each of them is enabled, meets `cond`
and returns. -/
def follow (cond : σ → α → Prop) [∀ s a, Decidable (m.Enabled s a)] [∀ s a, Decidable (cond s a)] :
    List α → σ → Option σ
  | [], s => some s
  | a :: rest, s =>
    if m.Enabled s a ∧ cond s a then
      match m.exec a s with
      | .done _ next => follow cond rest next
      | .stop _ => none
    else none

variable [∀ s a, Decidable (m.Enabled s a)] [∀ s a, Decidable (cond s a)]

theorem run_of_follow {actions : List α} : ∀ {s : σ}, m.follow cond actions s = some last →
    m.Run cond s last := by
  induction actions with
  | nil =>
    intro s h
    obtain rfl : s = last := by simpa [follow] using h
    exact .refl
  | cons a rest ih =>
    intro s h
    simp only [follow] at h
    split at h
    · rename_i hboth
      cases hexec : m.exec a s with
      | stop reason => simp [hexec] at h
      | done value next =>
        simp only [hexec] at h
        exact .head ⟨a, hboth.1, hboth.2, hexec⟩ (ih h)
    · simp at h

/-- What holds in the last state of a list of actions holds in a state that a run reaches. -/
theorem exists_run_of_follow (m : System ε σ α) (cond : σ → α → Prop)
    [∀ s a, Decidable (m.Enabled s a)] [∀ s a, Decidable (cond s a)] (actions : List α) (s : σ)
    (P : σ → Prop) [DecidablePred P]
    (h : (m.follow cond actions s).any (fun last => decide (P last)) = true) :
    ∃ last, m.Run cond s last ∧ P last := by
  obtain ⟨last, hlast, hP⟩ := (Option.any_eq_true _ _).1 h
  exact ⟨last, run_of_follow hlast, of_decide_eq_true hP⟩

end

end System

end LosKernel
