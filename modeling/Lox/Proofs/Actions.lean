/-
# Actions

An action leaves a state whether it gives a value or stops, and what comes
after it starts in that state unless it stops. An expression is evaluated by
looking names up, assigning and applying operators, one after another; what
holds of these actions holds of every evaluation.

Key definitions: `Action.after`, `Action.Keeps`, `Action.ClosedOnVariables`.
Key theorems: `Action.bind_of_ok`, `Action.bind_of_error`, `Action.Keeps.bind`,
`Action.ClosedOnVariables.evaluate`.
-/
import Lox.Execution

namespace Lox

/-! ### What an action leaves -/

namespace Action

variable {σ α β γ : Type}

/-- The state an action leaves, whether it gives a value or stops. -/
def after (action : Action σ α) (s : σ) : σ :=
  match action s with
  | .ok _ t => t
  | .error _ t => t

theorem after_of_ok {action : Action σ α} {s t : σ} {a : α} (h : action s = .ok a t) :
    action.after s = t := by
  unfold after
  rw [h]

theorem after_of_error {action : Action σ α} {s t : σ} {stop : Stop}
    (h : action s = .error stop t) : action.after s = t := by
  unfold after
  rw [h]

theorem bind_of_ok {ε : Type} {action : EStateM ε σ α} {s t : σ} {a : α} (next : α → EStateM ε σ β)
    (h : action s = .ok a t) : (action >>= next) s = next a t := by
  show EStateM.bind action next s = _
  unfold EStateM.bind
  rw [h]

theorem bind_of_error {ε : Type} {action : EStateM ε σ α} {s t : σ} {stop : ε}
    (next : α → EStateM ε σ β) (h : action s = .error stop t) :
    (action >>= next) s = .error stop t := by
  show EStateM.bind action next s = _
  unfold EStateM.bind
  rw [h]

theorem after_bind_of_ok {action : Action σ α} {s t : σ} {a : α} (next : α → Action σ β)
    (h : action s = .ok a t) : (action >>= next).after s = (next a).after t := by
  unfold after
  rw [bind_of_ok next h]

theorem after_bind_of_error {action : Action σ α} {s t : σ} {stop : Stop} (next : α → Action σ β)
    (h : action s = .error stop t) : (action >>= next).after s = t := by
  unfold after
  rw [bind_of_error next h]

/-- `action` leaves what `view` sees of the state as it was. -/
def Keeps (view : σ → γ) (action : Action σ α) : Prop := ∀ s, view (action.after s) = view s

variable {view : σ → γ} {action : Action σ α} {s t : σ} {a : α}

theorem Keeps.of_ok (h : action.Keeps view) (hs : action s = .ok a t) : view t = view s := by
  rw [← h s, after_of_ok hs]

theorem Keeps.of_error {stop : Stop} (h : action.Keeps view) (hs : action s = .error stop t) :
    view t = view s := by
  rw [← h s, after_of_error hs]

theorem keeps_pure (a : α) : (pure a : Action σ α).Keeps view := fun _ => rfl

theorem keeps_ofExcept : ∀ e : Except Stop α, (MonadExcept.ofExcept e : Action σ α).Keeps view
  | .ok _ => fun _ => rfl
  | .error _ => fun _ => rfl

theorem Keeps.bind {next : α → Action σ β} (h : action.Keeps view)
    (hn : ∀ a, (next a).Keeps view) : (action >>= next).Keeps view := by
  intro s
  rcases hs : action s with ⟨a, t⟩ | ⟨stop, t⟩
  · rw [after_bind_of_ok next hs, hn a t, h.of_ok hs]
  · rw [after_bind_of_error next hs, h.of_error hs]

end Action

/-! ### What an evaluation is made of -/

/-- A property that the steps of an evaluation have and that is kept where they are put together. -/
structure Action.ClosedOnVariables (P : {α : Type} → Action Environment α → Prop) : Prop where
  value {α : Type} (a : α) : P (pure a)
  looking (name : Token) : P (lookup name)
  assigning (name : Token) (v : Value) : P (assign name v)
  prefixing (operator : Token) (v : Value) : P (MonadExcept.ofExcept (applyUnary operator v))
  joining (operator : Token) (l r : Value) : P (MonadExcept.ofExcept (applyBinary operator l r))
  andThen {α β : Type} {action : Action Environment α} {next : α → Action Environment β}
    (h : P action) (hn : ∀ a, P (next a)) : P (action >>= next)

theorem Action.ClosedOnVariables.evaluate {P : {α : Type} → Action Environment α → Prop}
    (h : ClosedOnVariables P) : ∀ e : Expression, P (evaluate e)
  | .literal v => h.value v
  | .group inner => by
    rw [Lox.evaluate]
    exact h.evaluate inner
  | .name token => h.looking token
  | .assign target value => by
    rw [Lox.evaluate]
    refine h.andThen (h.evaluate value) fun v => ?_
    exact h.andThen (h.assigning target v) fun _ => h.value v
  | .unary operator operand => by
    rw [Lox.evaluate]
    exact h.andThen (h.evaluate operand) fun v => h.prefixing operator v
  | .binary left operator right => by
    rw [Lox.evaluate]
    refine h.andThen (h.evaluate left) fun l => ?_
    exact h.andThen (h.evaluate right) fun r => h.joining operator l r
  | .logical left operator right => by
    rw [Lox.evaluate]
    refine h.andThen (h.evaluate left) fun l => ?_
    split
    · exact h.value l
    · exact h.evaluate right

end Lox
