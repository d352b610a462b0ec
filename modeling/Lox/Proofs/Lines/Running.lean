/-
# Lines do not matter to running

A program moved to other lines does the same to its variables and writes the
same. Only what it fails of is reported on the moved line.

Key definitions: `Stop.moved`, `Diagnostic.moved`, `Action.moved`.
Key theorems: `Action.moved_bind`, `evaluate_moved`, `execute_moved`, `interpret_append`.
-/
import Lox.Proofs.Lines.Moved
import Lox.Proofs.Scopes.Course

namespace Lox

/-! ### Failures on other lines -/

def Failure.moved (g : Nat → Nat) : Failure → Failure
  | .evaluation line cause => .evaluation (g line) cause
  | .output reason => .output reason

def Stop.moved (g : Nat → Nat) : Stop → Stop
  | .failure f => .failure (f.moved g)
  | .malformed m => .malformed m
  | .outOfRounds => .outOfRounds

def Diagnostic.moved (g : Nat → Nat) : Diagnostic → Diagnostic
  | .static line place problem => .static (g line) place problem
  | .evaluation line problem => .evaluation (g line) problem
  | .output reason => .output reason

theorem Failure.diagnostic_moved (g : Nat → Nat) (f : Failure) :
    (f.moved g).diagnostic = f.diagnostic.moved g := by
  cases f <;> rfl

namespace Action

variable {σ α β : Type} (g : Nat → Nat)

/-- The same action, stopping on other lines. -/
def moved (action : Action σ α) : Action σ α := fun s =>
  match action s with
  | .ok a t => .ok a t
  | .error stop t => .error (stop.moved g) t

theorem moved_of_ok {action : Action σ α} {s t : σ} {a : α} (h : action s = .ok a t) :
    action.moved g s = .ok a t := by
  unfold moved
  rw [h]

theorem moved_of_error {action : Action σ α} {s t : σ} {stop : Stop} (h : action s = .error stop t) :
    action.moved g s = .error (stop.moved g) t := by
  unfold moved
  rw [h]

theorem moved_bind (action : Action σ α) (next : α → Action σ β) :
    Action.moved g (action >>= next) = Action.moved g action >>= fun a => (next a).moved g := by
  funext s
  rcases h : action s with ⟨a, t⟩ | ⟨stop, t⟩
  · have hm := moved_of_ok g h
    rw [bind_of_ok _ hm]
    unfold moved
    rw [bind_of_ok _ h]
  · have hm := moved_of_error g h
    rw [bind_of_error _ hm]
    exact moved_of_error g (bind_of_error _ h)

theorem moved_ofExcept (e : Except Stop α) :
    Action.moved g (MonadExcept.ofExcept e : Action σ α) =
      MonadExcept.ofExcept (e.mapError (Stop.moved g)) := by
  cases e <;> rfl

end Action

/-! ### Expressions -/

section Moved

variable (g : Nat → Nat)

theorem applyUnary_moved (operator : Token) (v : Value) :
    applyUnary (operator.moved g) v = (applyUnary operator v).mapError (Stop.moved g) := by
  unfold applyUnary
  rw [Token.kind_moved]
  split <;> rfl

theorem applyBinary_moved (operator : Token) (l r : Value) :
    applyBinary (operator.moved g) l r = (applyBinary operator l r).mapError (Stop.moved g) := by
  unfold applyBinary
  rw [Token.kind_moved]
  split
  · rfl
  · rfl
  · split <;> rfl
  · split
    · split <;> rfl
    · rfl

theorem lookup_moved (token : Token) : lookup (token.moved g) = (lookup token).moved g := by
  funext env
  have hl : (token.moved g).lexeme = token.lexeme := rfl
  unfold Action.moved lookup
  rw [hl]
  cases env.get? token.lexeme <;> rfl

theorem assign_moved (token : Token) (v : Value) :
    assign (token.moved g) v = (assign token v).moved g := by
  funext env
  have hl : (token.moved g).lexeme = token.lexeme := rfl
  unfold Action.moved assign
  rw [hl]
  cases env.assign? token.lexeme v <;> rfl

/-- An expression on other lines has the same value and the same effects. -/
theorem evaluate_moved : ∀ e : Expression, evaluate (e.moved g) = (evaluate e).moved g
  | .literal v => rfl
  | .group inner => by
    rw [Expression.moved, evaluate, evaluate, evaluate_moved inner]
  | .name token => by
    rw [Expression.moved, evaluate, evaluate, lookup_moved]
  | .assign target value => by
    rw [Expression.moved, evaluate, evaluate, evaluate_moved value, Action.moved_bind]
    congr 1
    funext v
    rw [Action.moved_bind, assign_moved]
    rfl
  | .unary operator operand => by
    rw [Expression.moved, evaluate, evaluate, evaluate_moved operand, Action.moved_bind]
    congr 1
    funext v
    rw [Action.moved_ofExcept, applyUnary_moved]
  | .binary left operator right => by
    rw [Expression.moved, evaluate, evaluate, evaluate_moved left, evaluate_moved right,
      Action.moved_bind]
    congr 1
    funext l
    rw [Action.moved_bind]
    congr 1
    funext r
    rw [Action.moved_ofExcept, applyBinary_moved]
  | .logical left operator right => by
    rw [Expression.moved, evaluate, evaluate, evaluate_moved left, evaluate_moved right,
      Action.moved_bind]
    congr 1
    funext l
    have hk : keepsLeft (operator.moved g) l = keepsLeft operator l := rfl
    rw [hk]
    split <;> rfl

/-! ### Statements -/

variable {W : Type}

theorem onVariables_moved {α : Type} (action : Action Environment α) :
    (onVariables (action.moved g) : Action (State W) α) = (onVariables action).moved g := by
  funext st
  rcases h : action st.environment with ⟨a, env⟩ | ⟨stop, env⟩
  · rw [onVariables_of_ok (Action.moved_of_ok g h), Action.moved_of_ok g (onVariables_of_ok h)]
  · rw [onVariables_of_error (Action.moved_of_error g h),
      Action.moved_of_error g (onVariables_of_error h)]

theorem holds_moved (condition : Expression) :
    (holds (condition.moved g) : Action (State W) Bool) = (holds condition).moved g := by
  unfold holds
  rw [evaluate_moved, ← onVariables_moved, Action.moved_bind]
  rfl

theorem writeLine_moved [Output W] (line : String) :
    (writeLine line : Action (State W) Unit).moved g = writeLine line := by
  funext st
  rcases hw : Output.writeLine st.sink line with ⟨_ | reason, written⟩
  · rw [writeLine_of_taken hw, Action.moved_of_ok g (writeLine_of_taken hw)]
  · rw [writeLine_of_refused hw, Action.moved_of_error g (writeLine_of_refused hw)]
    rfl

theorem flush_moved [Output W] : (flush : Action (State W) Unit).moved g = flush := by
  funext st
  rcases hf : Output.flush st.sink with ⟨_ | reason, flushed⟩
  · rw [flush_of_done hf, Action.moved_of_ok g (flush_of_done hf)]
  · rw [flush_of_refused hf, Action.moved_of_error g (flush_of_refused hf)]
    rfl

theorem inScope_moved (body : Action (State W) Unit) :
    inScope (body.moved g) = (inScope body).moved g := by
  funext st
  rcases h : body ⟨st.environment.enter, st.sink⟩ with ⟨⟨⟩, last⟩ | ⟨stop, last⟩
  · rw [inScope_of_ok (Action.moved_of_ok g h), Action.moved_of_ok g (inScope_of_ok h)]
  · rw [inScope_of_error (Action.moved_of_error g h), Action.moved_of_error g (inScope_of_error h)]

theorem repeatWhile_moved (test : Action (State W) Bool) (body : Action (State W) Unit) :
    ∀ rounds : Nat,
      repeatWhile (test.moved g) (body.moved g) rounds = (repeatWhile test body rounds).moved g
  | 0 => rfl
  | rounds + 1 => by
    rw [repeatWhile, repeatWhile, Action.moved_bind, repeatWhile_moved test body rounds]
    congr 1
    funext b
    cases b with
    | false => rfl
    | true => exact (Action.moved_bind g body _).symm

variable [Output W]

mutual

/-- A statement on other lines does the same. -/
theorem execute_moved (rounds : Nat) : ∀ s : Statement,
    (execute rounds (s.moved g) : Action (State W) Unit) = (execute rounds s).moved g
  | .print value => by
    rw [Statement.moved, execute, execute, evaluate_moved, onVariables_moved, Action.moved_bind]
    congr 1
    funext v
    rw [writeLine_moved]
  | .evaluate e => by
    rw [Statement.moved, execute, execute, evaluate_moved, onVariables_moved, Action.moved_bind]
    rfl
  | .declare name none => by
    rw [Statement.moved]
    rfl
  | .declare name (some e) => by
    rw [Statement.moved, Option.map_some, execute, execute, evaluate_moved, onVariables_moved,
      Action.moved_bind]
    rfl
  | .block body => by
    rw [Statement.moved, execute, execute, executeAll_moved rounds body, inScope_moved]
  | .branch condition yes none => by
    rw [Statement.moved, execute, execute, holds_moved, execute_moved rounds yes, Action.moved_bind]
    congr 1
    funext b
    cases b <;> rfl
  | .branch condition yes (some no) => by
    rw [Statement.moved, execute, execute, holds_moved, execute_moved rounds yes,
      execute_moved rounds no, Action.moved_bind]
    congr 1
    funext b
    cases b <;> rfl
  | .loop condition body => by
    rw [Statement.moved, execute, execute, holds_moved, execute_moved rounds body, repeatWhile_moved]

theorem executeAll_moved (rounds : Nat) : ∀ ds : Declarations,
    (executeAll rounds (Declarations.moved g ds) : Action (State W) Unit) =
      (executeAll rounds ds).moved g
  | [] => by
    rw [Declarations.moved]
    rfl
  | none :: rest => by
    rw [Declarations.moved, executeAll, executeAll, executeAll_moved rounds rest]
  | some s :: rest => by
    rw [Declarations.moved, executeAll, executeAll, execute_moved rounds s,
      executeAll_moved rounds rest, Action.moved_bind]

end

theorem interpret_moved (rounds : Nat) (program : Declarations) :
    (interpret rounds (Declarations.moved g program) : Action (State W) Unit) =
      (interpret rounds program).moved g := by
  unfold interpret
  rw [executeAll_moved, Action.moved_bind, flush_moved]

end Moved

/-! ### One program after another -/

section Append

variable {W : Type} [Output W] {rounds : Nat}

theorem executeAll_append (more : Declarations) : ∀ {ds : Declarations} {st mid : State W},
    executeAll rounds ds st = .ok () mid →
    executeAll rounds (ds ++ more) st = executeAll rounds more mid
  | [], st, mid, h => by
    rw [executeAll_nil] at h
    cases h
    rfl
  | none :: rest, st, mid, h => by
    rw [executeAll_none] at h
    rw [List.cons_append, executeAll_none, executeAll_append more h]
  | some s :: rest, st, mid, h => by
    rcases hs : execute rounds s st with ⟨⟨⟩, next⟩ | ⟨stop, next⟩
    · rw [executeAll_of_ok hs] at h
      rw [List.cons_append, executeAll_of_ok hs, executeAll_append more h]
    · rw [executeAll_of_error hs] at h
      cases h

theorem executeAll_append_of_error (more : Declarations) {stop : Stop} :
    ∀ {ds : Declarations} {st last : State W}, executeAll rounds ds st = .error stop last →
      executeAll rounds (ds ++ more) st = .error stop last := by
  intro ds
  induction ds with
  | nil =>
    intro st last h
    rw [executeAll_nil] at h
    simp at h
  | cons entry rest ih =>
    intro st last h
    cases entry with
    | none =>
      rw [executeAll_none] at h
      rw [List.cons_append, executeAll_none, ih h]
    | some s =>
      rcases hs : execute rounds s st with ⟨⟨⟩, next⟩ | ⟨stop', next⟩
      · rw [executeAll_of_ok hs] at h
        rw [List.cons_append, executeAll_of_ok hs, ih h]
      · rw [executeAll_of_error hs] at h
        rw [List.cons_append, executeAll_of_error hs, h]

/-- A program goes on where one before it has left off, if that is not flushed. -/
theorem interpret_append {program more : Declarations} {st mid : State W}
    (h : executeAll rounds program st = .ok () mid) :
    interpret rounds (program ++ more) st = interpret rounds more mid := by
  have hp := executeAll_append more h
  unfold interpret
  show EStateM.bind _ _ _ = EStateM.bind _ _ _
  unfold EStateM.bind
  rw [hp]

/-- What stops a program before it is flushed stops it also with another behind it. -/
theorem interpret_append_of_error {program : Declarations} (more : Declarations)
    {st last : State W} {stop : Stop} (h : interpret rounds program st = .error stop last)
    (hs : ∀ reason, stop ≠ .failure (.output reason)) :
    interpret rounds (program ++ more) st = .error stop last :=
  interpret_of_error (executeAll_append_of_error more (executeAll_of_interpret_error h hs))

end Append

end Lox
