/-
# The steps that programs are made of

Every program is put together from a few steps: it evaluates an expression,
defines a name, writes a line, flushes; it does one thing after another, in a
scope of its own or round after round. What holds of these holds of every
program. It is said for two numbers of rounds at once, one at most the other.
A property of a program, whatever its rounds, is the relation that says
nothing of the second action.

Key definitions: `Action.Commutes`, `Action.Respects`, `Action.ClosedUnflushed`, `Action.Closed`.
Key theorems: `Action.Respects.bind`, `Action.ClosedUnflushed.execute`, `Action.Closed.interpret`.
-/
import Lox.Proofs.Runs
import Lox.Proofs.Scopes.Course

namespace Lox

/-- A scope of its own, in one equation for both ends of its body. -/
theorem inScope_eq {W : Type} (body : Action (State W) Unit) (st : State W) :
    inScope body st =
      mapState (fun last : State W => ⟨last.environment.leave, last.sink⟩)
        (body ⟨st.environment.enter, st.sink⟩) := by
  rcases h : body ⟨st.environment.enter, st.sink⟩ with ⟨⟨⟩, last⟩ | ⟨stop, last⟩
  · exact inScope_of_ok h
  · exact inScope_of_error h

/-! ### Actions and changes of the state -/

theorem Action.after_of_ending {W : Type} {action : Action (State W) Unit} {st last : State W}
    {failure : Option Failure} (h : action st = ending failure last) : action.after st = last := by
  cases failure with
  | none => exact Action.after_of_ok h
  | some f => exact Action.after_of_error h

namespace Action

variable {σ α β : Type} {f : σ → σ}

/-- The action comes to the same from the changed state, and the change is still there after it. -/
def Commutes (f : σ → σ) (action : Action σ α) : Prop := ∀ s, action (f s) = mapState f (action s)

theorem commutes_pure (a : α) : (pure a : Action σ α).Commutes f := fun _ => rfl

theorem commutes_throw (stop : Stop) : (throw stop : Action σ α).Commutes f := fun _ => rfl

theorem commutes_ofExcept : ∀ e : Except Stop α, (MonadExcept.ofExcept e : Action σ α).Commutes f
  | .ok _ => fun _ => rfl
  | .error _ => fun _ => rfl

theorem Commutes.bind {action : Action σ α} {next : α → Action σ β} (h : action.Commutes f)
    (hn : ∀ a, (next a).Commutes f) : (action >>= next).Commutes f := by
  intro s
  have hs := h s
  rcases ha : action s with ⟨a, t⟩ | ⟨stop, t⟩
  · rw [ha] at hs
    rw [bind_of_ok next hs, bind_of_ok next ha, hn]
  · rw [ha] at hs
    rw [bind_of_error next hs, bind_of_error next ha]
    rfl

end Action

theorem onVariables_commutes {W α : Type} (action : Action Environment α) (f : W → W) :
    (onVariables action).Commutes fun st : State W => ⟨st.environment, f st.sink⟩ := by
  intro st
  rcases h : action st.environment with ⟨a, env⟩ | ⟨stop, env⟩
  · rw [onVariables_of_ok h]
    exact onVariables_of_ok h
  · rw [onVariables_of_error h]
    exact onVariables_of_error h

theorem flush_commutes {f : Sink → Sink} (hf : ∀ sink, (f sink).flushRefusal = sink.flushRefusal) :
    flush.Commutes fun st => ⟨st.environment, f st.sink⟩ := by
  intro st
  rw [flush_sink, flush_sink, hf]
  cases st.sink.flushRefusal <;> rfl

/-! ### Actions and what is seen of the state -/

/-- Results that look the same are of one kind, with the same value or the same reason to stop. -/
theorem mapState_eq {ε σ τ α : Type} {view : σ → τ} {result other : EStateM.Result ε σ α}
    (h : mapState view result = mapState view other) :
    (∃ a s t, result = .ok a s ∧ other = .ok a t ∧ view s = view t) ∨
      ∃ stop s t, result = .error stop s ∧ other = .error stop t ∧ view s = view t := by
  cases result with
  | ok a s =>
    cases other with
    | ok b t =>
      injection h with ha hv
      exact .inl ⟨a, s, t, rfl, by rw [ha], hv⟩
    | error stop t => cases h
  | error stop s =>
    cases other with
    | ok b t => cases h
    | error stop' t =>
      injection h with he hv
      exact .inr ⟨stop, s, t, rfl, by rw [he], hv⟩

namespace Action

variable {σ τ α β : Type} {view : σ → τ}

/-- From states that look the same the action comes to the same, in states that look the same. -/
def Respects (view : σ → τ) (action : Action σ α) : Prop :=
  ∀ s t, view s = view t → mapState view (action s) = mapState view (action t)

theorem respects_pure (a : α) : (pure a : Action σ α).Respects view :=
  fun _ _ h => congrArg (EStateM.Result.ok a) h

theorem respects_throw (stop : Stop) : (throw stop : Action σ α).Respects view :=
  fun _ _ h => congrArg (EStateM.Result.error stop) h

theorem respects_ofExcept : ∀ e : Except Stop α,
    (MonadExcept.ofExcept e : Action σ α).Respects view
  | .ok a => respects_pure a
  | .error stop => respects_throw stop

theorem respects_id (action : Action σ α) : action.Respects id :=
  fun _ _ h => congrArg (fun s => mapState id (action s)) h

theorem Respects.bind {action : Action σ α} {next : α → Action σ β} (h : action.Respects view)
    (hn : ∀ a, (next a).Respects view) : (action >>= next).Respects view := by
  intro s t hst
  rcases mapState_eq (h s t hst) with ⟨a, mid, mid', hs, ht, hv⟩ | ⟨stop, mid, mid', hs, ht, hv⟩
  · rw [bind_of_ok next hs, bind_of_ok next ht]
    exact hn a mid mid' hv
  · rw [bind_of_error next hs, bind_of_error next ht]
    exact congrArg (EStateM.Result.error stop) hv

end Action

/-! ### Steps and programs -/

namespace Action

variable {W : Type} [Output W]

/-- A relation of actions that the steps have to themselves, but for the flush, and that is kept
where they are put together. A loop out of rounds may have anything on the other side. -/
structure ClosedUnflushed (R : {α : Type} → Action (State W) α → Action (State W) α → Prop) : Prop where
  value {α : Type} (a : α) : R (pure a) (pure a)
  exhausted (more : Action (State W) Unit) : R (throw .outOfRounds) more
  andThen {α β : Type} {less more : Action (State W) α} {next later : α → Action (State W) β}
    (h : R less more) (hn : ∀ a, R (next a) (later a)) : R (less >>= next) (more >>= later)
  evaluating {α : Type} (action : Action Environment α) : R (onVariables action) (onVariables action)
  defining (name : String) (v : Value) : R (define name v) (define name v)
  writing (line : String) : R (writeLine line) (writeLine line)
  enclosing {less more : Action (State W) Unit} (h : R less more) : R (inScope less) (inScope more)

/-- The same with the flush. -/
structure Closed (R : {α : Type} → Action (State W) α → Action (State W) α → Prop) : Prop
    extends ClosedUnflushed R where
  flushing : R flush flush

variable {R : {α : Type} → Action (State W) α → Action (State W) α → Prop}

namespace ClosedUnflushed

theorem repeating (h : ClosedUnflushed R) {test test' : Action (State W) Bool}
    {body body' : Action (State W) Unit}
    (ht : R test test') (hb : R body body') : ∀ {rounds more : Nat}, rounds ≤ more →
      R (repeatWhile test body rounds) (repeatWhile test' body' more)
  | 0, _, _ => h.exhausted _
  | rounds + 1, more + 1, hle => by
    rw [repeatWhile, repeatWhile]
    refine h.andThen ht fun holds => ?_
    split
    · exact h.andThen hb fun _ => h.repeating ht hb (Nat.le_of_succ_le_succ hle)
    · exact h.value ()

variable {rounds more : Nat}

mutual

theorem execute (h : ClosedUnflushed R) (hle : rounds ≤ more) : ∀ s : Statement,
    R (Lox.execute rounds s) (Lox.execute more s)
  | .print value => by
    rw [Lox.execute, Lox.execute]
    exact h.andThen (h.evaluating _) fun v => h.writing v.text
  | .evaluate e => by
    rw [Lox.execute, Lox.execute]
    exact h.andThen (h.evaluating _) fun _ => h.value ()
  | .declare name none => by
    rw [Lox.execute, Lox.execute]
    exact h.defining name.lexeme .nil
  | .declare name (some e) => by
    rw [Lox.execute, Lox.execute]
    exact h.andThen (h.evaluating _) fun v => h.defining name.lexeme v
  | .block body => by
    rw [Lox.execute, Lox.execute]
    exact h.enclosing (h.executeAll hle body)
  | .branch condition yes none => by
    rw [Lox.execute, Lox.execute]
    refine h.andThen (h.evaluating _) fun holds => ?_
    split
    · exact h.execute hle yes
    · exact h.value ()
  | .branch condition yes (some no) => by
    rw [Lox.execute, Lox.execute]
    refine h.andThen (h.evaluating _) fun holds => ?_
    split
    · exact h.execute hle yes
    · exact h.execute hle no
  | .loop condition body => by
    rw [Lox.execute, Lox.execute]
    exact h.repeating (h.evaluating _) (h.execute hle body) hle

theorem executeAll (h : ClosedUnflushed R) (hle : rounds ≤ more) : ∀ ds : Declarations,
    R (Lox.executeAll rounds ds) (Lox.executeAll more ds)
  | [] => by
    rw [Lox.executeAll, Lox.executeAll]
    exact h.value ()
  | none :: rest => by
    rw [Lox.executeAll, Lox.executeAll]
    exact h.executeAll hle rest
  | some s :: rest => by
    rw [Lox.executeAll, Lox.executeAll]
    exact h.andThen (h.execute hle s) fun _ => h.executeAll hle rest

end

end ClosedUnflushed

theorem Closed.interpret (h : Closed R) {rounds more : Nat} (hle : rounds ≤ more)
    (program : Declarations) : R (Lox.interpret rounds program) (Lox.interpret more program) :=
  h.andThen (h.executeAll hle program) fun _ => h.flushing

end Action
end Lox
