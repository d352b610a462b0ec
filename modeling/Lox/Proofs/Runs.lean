/-
# Runs of a session

A run takes a source, checks it and, unless there is a static error on
record, interprets it. What a run comes to is stated once for each way it can
end; a session is reached by any runs, and by taking or resetting what is on
record between them.

Key definitions: `mapState`, `leaves`, `verdict`, `ending`, `Session.program`, `Session.checked`,
`Session.settled`, `Session.listed`, `Session.Reached`.
Key theorems: `Session.run_of_static`, `Session.run_of_ending`, `Session.ends_of_run`.
-/
import Lox.Session

namespace Lox

/-- What a step comes to, with the state it leaves replaced. -/
def mapState {ε σ τ α : Type} (f : σ → τ) : EStateM.Result ε σ α → EStateM.Result ε τ α
  | .ok a st => .ok a (f st)
  | .error stop st => .error stop (f st)

theorem mapState_mapState {ε σ α : Type} (f g : σ → σ) (result : EStateM.Result ε σ α) :
    mapState f (mapState g result) = mapState (f ∘ g) result := by
  cases result <;> rfl

/-- The state a step leaves, whatever it comes to. -/
def leaves {ε σ α : Type} : EStateM.Result ε σ α → σ
  | .ok _ st => st
  | .error _ st => st

/-- What a step comes to, whatever it leaves. -/
def verdict {ε σ α : Type} : EStateM.Result ε σ α → Except ε α
  | .ok a _ => .ok a
  | .error stop _ => .error stop

theorem leaves_mapState {ε σ τ α : Type} (f : σ → τ) (result : EStateM.Result ε σ α) :
    leaves (mapState f result) = f (leaves result) := by
  cases result <;> rfl

theorem verdict_mapState {ε σ τ α : Type} (f : σ → τ) (result : EStateM.Result ε σ α) :
    verdict (mapState f result) = verdict result := by
  cases result <;> rfl

/-- How the interpretation of a program ends, in success or of a failure. -/
def ending {W : Type} : Option Failure → State W → EStateM.Result Stop (State W) Unit
  | none, st => .ok () st
  | some f, st => .error (.failure f) st

theorem mapState_ending (f : State → State) (failure : Option Failure) (st : State) :
    mapState f (ending failure st) = ending failure (f st) := by
  cases failure <;> rfl

namespace Session

variable {W : Type}

/-- The declarations a source is read as. -/
def program (source : String) : Declarations := (parse (scan source).tokens).declarations

/-- All that is wrong with the text of a source. -/
def staticDiagnostics (source : String) : List Diagnostic :=
  (scan source).diagnostics ++ (parse (scan source).tokens).diagnostics

/-- The record once the source is read. -/
def checked (session : Session W) (source : String) : Diagnostics :=
  (opening session.options session.diagnostics).recordAll (staticDiagnostics source)

/-- The record once the program has ended. -/
def settled (session : Session W) (source : String) (failure : Option Failure) : Diagnostics :=
  (session.checked source).recordAll (failure.toList.map Failure.diagnostic)

/-- The state once the listings are written. -/
def listed [Output W] (session : Session W) (source : String) : State W :=
  ⟨session.state.environment,
    list (listing session.options (scan source).tokens (program source)) session.state.sink⟩

section Run

variable [Output W] {rounds : Nat} {source : String} {session : Session W} {st : State W}

/-- A run in terms of what it reads and lists. -/
theorem run_eq (rounds : Nat) (source : String) (session : Session W) :
    run rounds source session =
      if (session.checked source).hadError then
        .ok .staticError ⟨session.options, session.listed source, session.checked source⟩
      else
        match interpret rounds (program source) (session.listed source) with
        | .ok () st =>
          .ok (if (session.checked source).hadRuntimeError then .runtimeError else .success)
            ⟨session.options, st, session.checked source⟩
        | .error (.failure f) st =>
          .ok .runtimeError ⟨session.options, st, (session.checked source).record f.diagnostic⟩
        | .error (.malformed m) st =>
          .error (.malformed m) ⟨session.options, st, session.checked source⟩
        | .error .outOfRounds st =>
          .error .outOfRounds ⟨session.options, st, session.checked source⟩ := by
  obtain ⟨options, ⟨environment, sink⟩, diagnostics⟩ := session
  rfl

theorem run_of_static (h : (session.checked source).hadError = true) :
    run rounds source session =
      .ok .staticError ⟨session.options, session.listed source, session.checked source⟩ := by
  rw [run_eq, if_pos h]

theorem run_of_ending {failure : Option Failure} (h : (session.checked source).hadError = false)
    (hi : interpret rounds (program source) (session.listed source) = ending failure st) :
    run rounds source session =
      .ok (if (session.settled source failure).hadRuntimeError then .runtimeError else .success)
        ⟨session.options, st, session.settled source failure⟩ := by
  rw [run_eq, if_neg (by rw [h]; decide), hi]
  cases failure with
  | none => rfl
  | some f =>
    have hf : (session.settled source (some f)).hadRuntimeError = true := by
      cases f <;> exact Bool.or_true _
    rw [if_pos hf]
    rfl

/-- A run that ends stops at a static error on record, or its program ends. -/
theorem ends_of_run {outcome : Outcome} {next : Session W}
    (h : run rounds source session = .ok outcome next) :
    ((session.checked source).hadError = true ∧ outcome = .staticError ∧
      next = ⟨session.options, session.listed source, session.checked source⟩) ∨
    ((session.checked source).hadError = false ∧ ∃ failure,
      interpret rounds (program source) (session.listed source) = ending failure next.state ∧
      outcome = (if next.diagnostics.hadRuntimeError then .runtimeError else .success) ∧
      next = ⟨session.options, next.state, session.settled source failure⟩) := by
  by_cases hc : (session.checked source).hadError = true
  · rw [run_of_static hc] at h
    cases h
    exact .inl ⟨hc, rfl, rfl⟩
  · have hc' := eq_false_of_ne_true hc
    right
    refine ⟨hc', ?_⟩
    obtain ⟨failure, st, hi⟩ : ∃ failure st,
        interpret rounds (program source) (session.listed source) = ending failure st := by
      rw [run_eq, if_neg hc] at h
      rcases hi : interpret rounds (program source) (session.listed source) with
        ⟨⟨⟩, st⟩ | ⟨f | m | _, st⟩
      · exact ⟨none, st, rfl⟩
      · exact ⟨some f, st, rfl⟩
      · rw [hi] at h
        cases h
      · rw [hi] at h
        cases h
    rw [run_of_ending hc' hi] at h
    cases h
    exact ⟨failure, hi, rfl, rfl⟩

end Run

/-- The sessions that runs, taking the diagnostics and resets lead to. -/
inductive Reached [Output W] : Session W → Prop
  | new (options : Options) (sink : W) : Reached ⟨options, ⟨{}, sink⟩, {}⟩
  | run {session next : Session W} {rounds : Nat} {source : String} {outcome : Outcome}
      (h : Reached session) (hr : Session.run rounds source session = .ok outcome next) : Reached next
  | drain {session : Session W} (h : Reached session) : Reached session.drain.2
  | reset {session : Session W} (h : Reached session) : Reached session.reset

end Session
end Lox
