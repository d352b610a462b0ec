/-
# The names of the scopes

Which names are bound, and in which scope, changes in three ways only: a
declaration binds its name in the innermost scope, a block opens a scope
without a name, and its end closes it. An assignment changes a value and no
name, so evaluating an expression keeps the names of all scopes, whatever it
comes to.

Key definitions: `withName`, `Environment.names`.
Key theorems: `Environment.names_define`, `Environment.names_assign?`, `evaluate_keeps_names`.
-/
import Lox.Proofs.Actions

namespace Lox

/-! ### Names -/

/-- The names with `name` among them; they stay without repetition. -/
def withName (name : String) (names : List String) : List String :=
  if name ∈ names then names else names ++ [name]

namespace Scope

theorem isSome_get? (name : String) : ∀ scope : Scope, (scope.get? name).isSome ↔ name ∈ scope.names
  | [] => by simp [get?, names]
  | (key, value) :: rest => by
    have ih := isSome_get? name rest
    unfold get? names
    rw [List.map_cons, List.mem_cons]
    by_cases h : key = name
    · simp [h]
    · rw [if_neg h, ih]
      exact ⟨.inr, fun h' => h'.resolve_left fun e => h e.symm⟩

theorem names_insert (name : String) (v : Value) :
    ∀ scope : Scope, (scope.insert name v).names = withName name scope.names
  | [] => rfl
  | (key, old) :: rest => by
    have ih := names_insert name v rest
    unfold names withName at ih ⊢
    unfold insert
    by_cases h : key = name
    · rw [if_pos h, h]
      simp
    · have hk : name ≠ key := fun e => h e.symm
      rw [if_neg h, List.map_cons, ih]
      by_cases hm : name ∈ rest.map Prod.fst
      · simp [hm]
      · simp [hm, hk]

/-- A name that is bound already is only given another value. -/
theorem names_insert_of_get? {name : String} {v old : Value} {scope : Scope}
    (h : scope.get? name = some old) : (scope.insert name v).names = scope.names := by
  have hm : name ∈ scope.names := (isSome_get? name scope).mp (by rw [h]; rfl)
  rw [names_insert, withName, if_pos hm]

end Scope

namespace Environment

/-- The names of each scope, the innermost first. -/
def names (env : Environment) : List (List String) := env.scopes.map Scope.names

theorem names_eq (env : Environment) :
    env.names = env.innermost.names :: env.outer.map Scope.names := rfl

theorem names_define (env : Environment) (name : String) (v : Value) :
    (env.define name v).names = withName name env.innermost.names :: env.outer.map Scope.names := by
  rw [names_eq, define, Scope.names_insert]

theorem names_assignIn {name : String} {v : Value} : ∀ {scopes assigned : List Scope},
    assignIn name v scopes = some assigned → assigned.map Scope.names = scopes.map Scope.names
  | [], _, h => by simp [assignIn] at h
  | scope :: rest, assigned, h => by
    unfold assignIn at h
    split at h
    · rename_i old hold
      cases h
      rw [List.map_cons, Scope.names_insert_of_get? hold, List.map_cons]
    · obtain ⟨tail, ht, rfl⟩ := Option.map_eq_some_iff.mp h
      rw [List.map_cons, names_assignIn ht, List.map_cons]

/-- An assignment binds no name. -/
theorem names_assign? {env assigned : Environment} {name : String} {v : Value}
    (h : env.assign? name v = some assigned) : assigned.names = env.names := by
  unfold assign? at h
  split at h
  · rename_i old hold
    cases h
    rw [names_eq, define, Scope.names_insert_of_get? hold, names_eq]
  · obtain ⟨outer, ho, rfl⟩ := Option.map_eq_some_iff.mp h
    rw [names_eq, names_assignIn ho, names_eq]

/-- An assignment is one in the list of all the scopes. -/
theorem scopes_assign? (env : Environment) (name : String) (v : Value) :
    (env.assign? name v).map scopes = assignIn name v env.scopes := by
  unfold assign? scopes
  rw [assignIn]
  cases env.innermost.get? name with
  | some old => rfl
  | none => cases assignIn name v env.outer <;> rfl

/-- Closing a scope leaves the names of the others. -/
theorem names_leave {env : Environment} {inner outer : List String} {rest : List (List String)}
    (h : env.names = inner :: outer :: rest) : env.leave.names = outer :: rest := by
  rcases env with ⟨innermost, _ | ⟨scope, scopes⟩⟩
  · cases h
  · exact (List.cons.inj h).2

end Environment

/-! ### Evaluating binds no name -/

theorem lookup_keeps_names (name : Token) : (lookup name).Keeps Environment.names := by
  intro env
  unfold Action.after lookup
  cases env.get? name.lexeme <;> rfl

theorem assign_keeps_names (name : Token) (v : Value) :
    (assign name v).Keeps Environment.names := by
  intro env
  unfold Action.after assign
  cases h : env.assign? name.lexeme v with
  | none => rfl
  | some assigned => exact Environment.names_assign? h

theorem keeps_names_closed : Action.ClosedOnVariables (Action.Keeps Environment.names) where
  value := Action.keeps_pure
  looking := lookup_keeps_names
  assigning := assign_keeps_names
  prefixing operator v := Action.keeps_ofExcept (applyUnary operator v)
  joining operator l r := Action.keeps_ofExcept (applyBinary operator l r)
  andThen h hn := h.bind hn

/-- Evaluating an expression keeps the names of every scope, also when it fails. -/
theorem evaluate_keeps_names (e : Expression) : (evaluate e).Keeps Environment.names :=
  keeps_names_closed.evaluate e

/-! ### Statements -/

section Steps

variable {W : Type} {α : Type}

theorem onVariables_of_ok {action : Action Environment α} {st : State W} {a : α}
    {env : Environment} (h : action st.environment = .ok a env) :
    onVariables action st = .ok a ⟨env, st.sink⟩ := by
  obtain ⟨environment, sink⟩ := st
  have h : action environment = .ok a env := h
  simp only [onVariables, h]

theorem onVariables_of_error {action : Action Environment α} {st : State W} {stop : Stop}
    {env : Environment} (h : action st.environment = .error stop env) :
    onVariables action st = .error stop ⟨env, st.sink⟩ := by
  obtain ⟨environment, sink⟩ := st
  have h : action environment = .error stop env := h
  simp only [onVariables, h]

theorem onVariables_keeps {γ : Type} {view : Environment → γ} {action : Action Environment α}
    (h : action.Keeps view) : (onVariables action).Keeps fun st : State W => view st.environment := by
  intro st
  rcases hs : action st.environment with ⟨a, env⟩ | ⟨stop, env⟩
  · rw [Action.after_of_ok (onVariables_of_ok hs)]
    exact h.of_ok hs
  · rw [Action.after_of_error (onVariables_of_error hs)]
    exact h.of_error hs

theorem holds_keeps_names (condition : Expression) :
    (holds condition).Keeps fun st : State W => st.environment.names :=
  onVariables_keeps ((evaluate_keeps_names condition).bind fun _ => Action.keeps_pure _)

theorem writeLine_keeps_environment [Output W] (line : String) :
    (writeLine line).Keeps (State.environment : State W → Environment) := by
  rintro ⟨environment, sink⟩
  rcases hw : Output.writeLine sink line with ⟨_ | reason, written⟩ <;>
    simp only [Action.after, writeLine, hw]

end Steps

end Lox
