import LosKernel.Lib.Prog

/-!
# Programs that keep a log

A program over `σ × γ` acts on the state `σ` and notes in `γ` what it did; `lift` runs a program
that has nothing to note. A program erases to another one if dropping the log gives the other one.
-/

namespace LosKernel

/-- What a program did, without the log. -/
def Outcome.dropLog {ε σ γ α : Type} : Outcome ε (σ × γ) α → Outcome ε σ α
  | .done value last => .done value last.1
  | .stop reason => .stop reason

namespace Prog

variable {ε σ γ α β : Type}

/-- Run a program that leaves the log alone. -/
def lift (m : Prog ε σ α) : Prog ε (σ × γ) α := fun s =>
  match m s.1 with
  | .done value last => .done value (last, s.2)
  | .stop reason => .stop reason

/-- Change the log. -/
def note (change : γ → γ) : Prog ε (σ × γ) Unit := update fun s => (s.1, change s.2)

theorem lift_done {m : Prog ε σ α} {s : σ × γ} {value : α} {last : σ}
    (h : m s.1 = .done value last) : lift m s = .done value (last, s.2) := by
  unfold lift
  rw [h]

theorem lift_stop {m : Prog ε σ α} {s : σ × γ} {reason : ε} (h : m s.1 = .stop reason) :
    lift m s = .stop reason := by
  unfold lift
  rw [h]

@[simp] theorem wp_lift {ok : ε → Prop} {m : Prog ε σ α} {s : σ × γ} {Q : α → σ × γ → Prop} :
    wp ok (lift m) s Q ↔ wp ok m s.1 fun value last => Q value (last, s.2) := by
  unfold wp lift
  cases m s.1 <;> rfl

/-- Without its log, `m` is `m'`. -/
def Erases (m : Prog ε (σ × γ) α) (m' : Prog ε σ α) : Prop :=
  ∀ s, (m s).dropLog = m' s.1

theorem erases_pure (value : α) : Erases (pure value : Prog ε (σ × γ) α) (pure value) :=
  fun _ => rfl

theorem erases_lift (m : Prog ε σ α) : Erases (lift m : Prog ε (σ × γ) α) m := by
  intro s
  cases h : m s.1 with
  | done value last => rw [lift_done h, Outcome.dropLog]
  | stop reason => rw [lift_stop h, Outcome.dropLog]

theorem Erases.bind {m : Prog ε (σ × γ) α} {m' : Prog ε σ α} {next : α → Prog ε (σ × γ) β}
    {next' : α → Prog ε σ β} (h : Erases m m')
    (hnext : ∀ value, Erases (next value) (next' value)) :
    Erases (m >>= next) (m' >>= next') := by
  intro s
  rw [bind_run, bind_run, ← h s]
  cases m s with
  | done value last => exact hnext value last
  | stop reason => rfl

/-- Notes are erased. -/
theorem Erases.note {change : γ → γ} {next : Prog ε (σ × γ) β} {next' : Prog ε σ β}
    (h : Erases next next') : Erases (note change >>= fun _ => next) next' :=
  fun s => h (s.1, change s.2)

/-- What holds of the program without the log holds of the one with it. -/
theorem Erases.wp {ok : ε → Prop} {m : Prog ε (σ × γ) α} {m' : Prog ε σ α} (h : Erases m m')
    {s : σ × γ} {Q : α → σ → Prop} (hwp : Prog.wp ok m' s.1 Q) :
    Prog.wp ok m s fun value last => Q value last.1 := by
  unfold Prog.wp at *
  rw [← h s] at hwp
  cases hm : m s with
  | done value last =>
    rw [hm] at hwp
    exact hwp
  | stop reason =>
    rw [hm] at hwp
    exact hwp

end Prog

end LosKernel
