/-
# An empty scope makes no difference

A scope without a name in it is passed over by every look-up and every
assignment. Where it stands among the scopes makes no difference to what a
statement comes to, as long as no declaration lands in it; so a block around
statements that declare nothing for those around them does nothing.

Key definitions: `Environment.padded`, `State.padded`.
Key theorems: `evaluate_padded`, `execute_padded`, `inScope_of_padded`.
-/
import Lox.Proofs.Output
import Lox.Proofs.Scopes.Restored

namespace Lox

/-! ### Environments with an empty scope more -/

/-- The scopes with an empty one more, around the `k` innermost. -/
def padScopes : Nat → List Scope → List Scope
  | 0, scopes => [] :: scopes
  | _ + 1, [] => [[]]
  | k + 1, scope :: rest => scope :: padScopes k rest

namespace Environment

/-- The environment with an empty scope more, around the `k` innermost. -/
def padded : Nat → Environment → Environment
  | 0, env => env.enter
  | k + 1, env => { env with outer := padScopes k env.outer }

theorem scopes_padded (k : Nat) (env : Environment) :
    (env.padded k).scopes = padScopes k env.scopes := by
  cases k <;> rfl

theorem eq_of_scopes_eq {env other : Environment} (h : env.scopes = other.scopes) : env = other := by
  obtain ⟨innermost, outer⟩ := env
  obtain ⟨innermost', outer'⟩ := other
  obtain ⟨rfl, rfl⟩ := List.cons.inj h
  rfl

theorem enter_padded (k : Nat) (env : Environment) :
    (env.padded k).enter = env.enter.padded (k + 1) := by
  apply eq_of_scopes_eq
  show [] :: (env.padded k).scopes = [] :: padScopes k env.scopes
  rw [scopes_padded]

/-- The global scope apart, closing a scope leaves the empty one where it is. -/
theorem leave_padded (k : Nat) {env : Environment} (h : env.outer ≠ []) :
    (env.padded (k + 1)).leave = env.leave.padded k := by
  obtain ⟨innermost, outer⟩ := env
  cases outer with
  | nil => exact absurd rfl h
  | cons scope rest => cases k <;> rfl

theorem findSome?_padScopes (name : String) : ∀ (k : Nat) (scopes : List Scope),
    (padScopes k scopes).findSome? (Scope.get? name) = scopes.findSome? (Scope.get? name)
  | 0, _ => rfl
  | _ + 1, [] => rfl
  | k + 1, scope :: rest => by
    rw [padScopes, List.findSome?_cons, List.findSome?_cons, findSome?_padScopes name k rest]

/-- A look-up passes over the empty scope. -/
theorem get?_padded (k : Nat) (env : Environment) (name : String) :
    (env.padded k).get? name = env.get? name := by
  rw [get?, scopes_padded, findSome?_padScopes, get?]

theorem assignIn_padScopes (name : String) (v : Value) : ∀ (k : Nat) (scopes : List Scope),
    assignIn name v (padScopes k scopes) = (assignIn name v scopes).map (padScopes k)
  | 0, _ => rfl
  | _ + 1, [] => rfl
  | k + 1, scope :: rest => by
    rw [padScopes, assignIn, assignIn, assignIn_padScopes name v k rest]
    cases scope.get? name with
    | some old => rfl
    | none => cases assignIn name v rest <;> rfl

/-- So does an assignment. -/
theorem assign?_padded (k : Nat) (env : Environment) (name : String) (v : Value) :
    (env.padded k).assign? name v = (env.assign? name v).map (padded k) := by
  have hs := scopes_assign? (env.padded k) name v
  rw [scopes_padded, assignIn_padScopes, ← scopes_assign? env name v] at hs
  apply Option.map_injective (fun _ _ => eq_of_scopes_eq)
  rw [hs]
  cases env.assign? name v with
  | none => rfl
  | some assigned => exact congrArg some (scopes_padded k assigned).symm

end Environment
/-! ### Expressions -/

theorem lookup_padded (k : Nat) (name : Token) : (lookup name).Commutes (Environment.padded k) := by
  intro env
  unfold lookup
  rw [Environment.get?_padded]
  cases env.get? name.lexeme <;> rfl

theorem assign_padded (k : Nat) (name : Token) (v : Value) :
    (assign name v).Commutes (Environment.padded k) := by
  intro env
  unfold assign
  rw [Environment.assign?_padded]
  cases env.assign? name.lexeme v <;> rfl

theorem padded_closed (k : Nat) :
    Action.ClosedOnVariables (Action.Commutes (Environment.padded k)) where
  value := Action.commutes_pure
  looking := lookup_padded k
  assigning := assign_padded k
  prefixing operator v := Action.commutes_ofExcept (applyUnary operator v)
  joining operator l r := Action.commutes_ofExcept (applyBinary operator l r)
  andThen h hn := h.bind hn

/-- An expression has the same value and the same effects. -/
theorem evaluate_padded (k : Nat) (e : Expression) :
    (evaluate e).Commutes (Environment.padded k) := (padded_closed k).evaluate e

/-! ### Statements -/

/-- The state with an empty scope more, around the `k` innermost. -/
def State.padded {W : Type} (k : Nat) (st : State W) : State W := ⟨st.environment.padded k, st.sink⟩

section Padded

variable {W : Type}

theorem onVariables_padded {α : Type} {k : Nat} {action : Action Environment α}
    (h : action.Commutes (Environment.padded k)) :
    (onVariables action).Commutes (State.padded k : State W → State W) := by
  intro st
  have hs := h st.environment
  rcases ha : action st.environment with ⟨a, env⟩ | ⟨stop, env⟩
  · rw [ha] at hs
    rw [onVariables_of_ok ha]
    exact onVariables_of_ok hs
  · rw [ha] at hs
    rw [onVariables_of_error ha]
    exact onVariables_of_error hs

theorem holds_padded (k : Nat) (condition : Expression) :
    (holds condition).Commutes (State.padded k : State W → State W) :=
  onVariables_padded ((evaluate_padded k condition).bind fun _ => Action.commutes_pure _)

theorem writeLine_padded [Output W] (k : Nat) (line : String) :
    (writeLine line).Commutes (State.padded k : State W → State W) := by
  intro st
  rcases hw : Output.writeLine st.sink line with ⟨_ | reason, written⟩
  · have hp : Output.writeLine (st.padded k).sink line = (none, written) := hw
    rw [writeLine_of_taken hw, writeLine_of_taken hp]
    rfl
  · have hp : Output.writeLine (st.padded k).sink line = (some reason, written) := hw
    rw [writeLine_of_refused hw, writeLine_of_refused hp]
    rfl

theorem define_padded (k : Nat) (name : String) (v : Value) :
    (define name v).Commutes (State.padded (k + 1) : State W → State W) := fun _ => rfl

/-- In a scope of its own an action may declare names: the empty scope is not the innermost. -/
theorem inScope_padded {k : Nat} {body : Action (State W) Unit}
    (hd : ∀ st, (body.after st).environment.depth = st.environment.depth)
    (h : body.Commutes (State.padded (k + 1))) : (inScope body).Commutes (State.padded k) := by
  intro st
  have hs : body ⟨(st.padded k).environment.enter, st.sink⟩ =
      mapState (State.padded (k + 1)) (body ⟨st.environment.enter, st.sink⟩) := by
    rw [← h]
    exact congrArg (fun env => body ⟨env, st.sink⟩) (Environment.enter_padded k st.environment)
  have hafter := hd ⟨st.environment.enter, st.sink⟩
  have hleave : ∀ last : State W, last.environment.depth = st.environment.enter.depth →
      (⟨(last.environment.padded (k + 1)).leave, last.sink⟩ : State W) =
        ⟨last.environment.leave.padded k, last.sink⟩ := by
    intro last hl
    refine congrArg (State.mk · last.sink) (Environment.leave_padded k fun ho => ?_)
    have hone : last.environment.depth = 1 := by simp [Environment.depth, Environment.scopes, ho]
    rw [Environment.depth_enter, hone] at hl
    have hpos : 0 < st.environment.depth := Nat.succ_pos _
    omega
  rw [inScope_eq, inScope_eq]
  show mapState _ (body ⟨(st.padded k).environment.enter, st.sink⟩) = _
  rw [hs]
  rcases hb : body ⟨st.environment.enter, st.sink⟩ with ⟨⟨⟩, last⟩ | ⟨stop, last⟩
  · rw [Action.after_of_ok hb] at hafter
    exact congrArg (EStateM.Result.ok ()) (hleave last hafter)
  · rw [Action.after_of_error hb] at hafter
    exact congrArg (EStateM.Result.error stop) (hleave last hafter)

theorem repeatWhile_padded {k : Nat} {test : Action (State W) Bool} {body : Action (State W) Unit}
    (ht : test.Commutes (State.padded k)) (hb : body.Commutes (State.padded k)) :
    ∀ rounds : Nat, (repeatWhile test body rounds).Commutes (State.padded k)
  | 0 => Action.commutes_throw .outOfRounds
  | rounds + 1 => by
    rw [repeatWhile]
    refine ht.bind fun holds => ?_
    split
    · exact hb.bind fun _ => repeatWhile_padded ht hb rounds
    · exact Action.commutes_pure ()

variable [Output W]

mutual

/-- A statement does the same with an empty scope more, which is not the innermost one unless
the statement declares nothing in it. -/
theorem execute_padded (rounds : Nat) : ∀ (s : Statement) {k : Nat}, 0 < k ∨ s.IsBody →
    (execute rounds s).Commutes (State.padded k : State W → State W)
  | .print value, k, _ => by
    rw [execute]
    exact (onVariables_padded (evaluate_padded k value)).bind fun v => writeLine_padded k v.text
  | .evaluate e, k, _ => by
    rw [execute]
    exact (onVariables_padded (evaluate_padded k e)).bind fun _ => Action.commutes_pure ()
  | .declare name initializer, 0, h => by
    have hb : (Statement.declare name initializer).IsBody := h.resolve_left (Nat.lt_irrefl 0)
    exact Bool.noConfusion hb.2
  | .declare name none, k + 1, _ => by
    rw [execute]
    exact define_padded k name.lexeme .nil
  | .declare name (some e), k + 1, _ => by
    rw [execute]
    exact (onVariables_padded (evaluate_padded (k + 1) e)).bind fun v => define_padded k name.lexeme v
  | .block body, k, _ => by
    rw [execute]
    exact inScope_padded (fun st => (executeAll_gains rounds body st).depth_eq)
      (executeAll_padded rounds body k)
  | .branch condition yes none, k, h => by
    rw [execute]
    refine (holds_padded k condition).bind fun holds => ?_
    split
    · exact execute_padded rounds yes (h.imp_right fun hb => hb.1.2)
    · exact Action.commutes_pure ()
  | .branch condition yes (some no), k, h => by
    rw [execute]
    refine (holds_padded k condition).bind fun holds => ?_
    split
    · exact execute_padded rounds yes (h.imp_right fun hb => hb.1.2.1)
    · exact execute_padded rounds no (h.imp_right fun hb => hb.1.2.2)
  | .loop condition body, k, h => by
    rw [execute]
    exact repeatWhile_padded (holds_padded k condition)
      (execute_padded rounds body (h.imp_right fun hb => hb.1.2)) rounds

theorem executeAll_padded (rounds : Nat) : ∀ (ds : Declarations) (k : Nat),
    (executeAll rounds ds).Commutes (State.padded (k + 1) : State W → State W)
  | [], k => by
    rw [executeAll]
    exact Action.commutes_pure ()
  | none :: rest, k => by
    rw [executeAll]
    exact executeAll_padded rounds rest k
  | some s :: rest, k => by
    rw [executeAll]
    refine (execute_padded rounds s (.inl (Nat.succ_pos k))).bind fun _ => ?_
    exact executeAll_padded rounds rest k

end

end Padded

/-- A scope in which nothing is declared does nothing. -/
theorem inScope_of_padded {W : Type} {body : Action (State W) Unit} (h : body.Commutes (State.padded 0)) :
    inScope body = body := by
  funext st
  have hs : body ⟨st.environment.enter, st.sink⟩ = mapState (State.padded 0) (body st) := h st
  rw [inScope_eq, hs]
  rcases body st with ⟨⟨⟩, last⟩ | ⟨stop, last⟩ <;> rfl

end Lox
