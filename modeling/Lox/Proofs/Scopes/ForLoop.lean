/-
# The meaning of a `for` loop

A `for` is read as a `while` in blocks. What it means is said here without
them: the start clause and the loop have a scope of their own when there is a
start clause, and in each round the step follows the body. Both are the same
action, since a body never declares a name for those around it, which makes the
scope around body and step an empty one.

Key definitions: `repeatFor`, `executeFor`.
Key theorems: `execute_desugared`, `for_loop_runs_as_meant`.
-/
import Mathlib
import Lox.Proofs.Grammar.Kept
import Lox.Proofs.Scopes.Padded

namespace Lox

variable {W : Type}

/-- As long as `test` holds, runs `body` and then `step`, for at most `rounds` rounds. -/
def repeatFor (test : Action (State W) Bool) (body step : Action (State W) Unit) :
    (rounds : Nat) → Action (State W) Unit
  | 0 => throw .outOfRounds
  | rounds + 1 => do
    if ← test then
      body
      step
      repeatFor test body step rounds

theorem repeatFor_eq (test : Action (State W) Bool) (body step : Action (State W) Unit) : ∀ rounds : Nat,
    repeatFor test body step rounds = repeatWhile test (do body; step) rounds
  | 0 => rfl
  | rounds + 1 => by
    rw [repeatFor, repeatWhile, repeatFor_eq test body step rounds]
    congr 1
    funext b
    cases b with
    | false => rfl
    | true => exact (bind_assoc body (fun _ => step) _).symm

/-- Whether a condition holds; one that is left out does. -/
def holdsIfAny : Option Expression → Action (State W) Bool
  | none => pure true
  | some condition => holds condition

theorem holds_getD (condition : Option Expression) :
    (holds (condition.getD (.literal (.boolean true))) : Action (State W) Bool) =
      holdsIfAny condition := by
  cases condition with
  | none => rfl
  | some e => rfl

/-- Evaluates a step, if there is one. -/
def takeStep : Option Expression → Action (State W) Unit
  | none => pure ()
  | some e => do
    let _ ← onVariables (evaluate e)

variable [Output W]

/-- The loop of a `for` after its start clause. -/
def executeRounds (rounds : Nat) (condition step : Option Expression) (body : Statement) :
    Action (State W) Unit :=
  repeatFor (holdsIfAny condition) (execute rounds body) (takeStep step) rounds

/-- A `for` loop as it is meant: a start clause runs in a scope of its own, which is open until the
loop ends, however it ends. -/
def executeFor (rounds : Nat) (start : Option Statement) (condition step : Option Expression)
    (body : Statement) : Action (State W) Unit :=
  match start with
  | none => executeRounds rounds condition step body
  | some s => inScope do
    execute rounds s
    executeRounds rounds condition step body

theorem executeAll_one (rounds : Nat) (s : Statement) :
    (executeAll rounds [some s] : Action (State W) Unit) = execute rounds s := by
  rw [executeAll, executeAll]
  exact bind_pure_unit

/-- The block around body and step does nothing. -/
theorem execute_body_with_step (rounds : Nat) {body : Statement} (h : body.IsBody) (e : Expression) :
    (execute rounds (.block [some body, some (.evaluate e)]) : Action (State W) Unit) =
      (do execute rounds body; takeStep (some e)) := by
  have hall : (executeAll rounds [some body, some (.evaluate e)] : Action (State W) Unit) =
      (do execute rounds body; takeStep (some e)) := by
    rw [executeAll, executeAll_one, execute]
    rfl
  have hpadded : (do execute rounds body; takeStep (some e)).Commutes
      (State.padded 0 : State W → State W) := by
    refine (execute_padded rounds body (.inr h)).bind fun _ => ?_
    exact (onVariables_padded (evaluate_padded 0 e)).bind fun _ => Action.commutes_pure ()
  rw [execute, hall, inScope_of_padded hpadded]

theorem execute_loop (rounds : Nat) (condition : Expression) (body : Statement) :
    (execute rounds (.loop condition body) : Action (State W) Unit) =
      repeatWhile (holds condition) (execute rounds body) rounds := by
  rw [execute]

theorem execute_desugared_loop (rounds : Nat) (condition step : Option Expression) {body : Statement}
    (h : body.IsBody) : (execute rounds (desugared none condition step body) : Action (State W) Unit) =
      executeRounds rounds condition step body := by
  unfold executeRounds
  rw [repeatFor_eq, ← holds_getD]
  cases step with
  | none =>
    have hb : (do execute rounds body; takeStep none : Action (State W) Unit) =
        execute rounds body := bind_pure_unit
    rw [hb]
    exact execute_loop ..
  | some e =>
    rw [← execute_body_with_step rounds h e]
    exact execute_loop ..

/-- The tree of a `for` does what the loop means. -/
theorem execute_desugared (rounds : Nat) (start : Option Statement) (condition step : Option Expression)
    {body : Statement} (h : body.IsBody) :
    (execute rounds (desugared start condition step body) : Action (State W) Unit) =
      executeFor rounds start condition step body := by
  have hloop := @execute_desugared_loop W _ rounds condition step body h
  cases start with
  | none => exact hloop
  | some s =>
    have hd : desugared (some s) condition step body =
        .block [some s, some (desugared none condition step body)] := by
      cases step <;> rfl
    rw [hd, execute, executeAll, executeAll_one, hloop]
    rfl

theorem isBody_of_clean {input rest : List Token} {body : Statement}
    (h : (Grammar.statement input).Clean body rest) : body.IsBody := by
  obtain ⟨shorter, hr⟩ := h
  have hg := Grammar.gives_statement input
  rw [hr] at hg
  exact hg

theorem forLoop_isBody_of_clean {input rest : List Token} {s : Statement}
    (h : (Grammar.forStatement input).Clean s rest) : s.IsBody := by
  obtain ⟨shorter, hr⟩ := h
  have hg := Grammar.gives_forStatement input
  rw [hr] at hg
  exact hg

/-- **A `for` loop behaves as a `for` loop.** What is read of a `for` after its first word has the
clauses and the body that the grammar says, and what it does is what the loop means, in every
state and for any number of rounds: the same result, the same output and the same variables.
The body leaves no name for the condition or the step to see, and the loop none for what comes
after it. -/
theorem for_loop_runs_as_meant {input rest : List Token} {s : Statement}
    (h : (Grammar.forStatement input).Clean s rest) :
    ∃ (left : Spelled .leftParen) (start : StartDerivation)
      (condition : Option (Derivation .expression)) (semicolon : Spelled .semicolon)
      (step : Option (Derivation .expression)) (right : Spelled .rightParen) (o : Bool)
      (body : StatementDerivation o),
      input = left.1 :: (start.tokens ++ (optionalTokens condition ++
        semicolon.1 :: (optionalTokens step ++ right.1 :: (body.tokens ++ rest)))) ∧
      (∀ rounds, (execute rounds s : Action (State W) Unit) =
        executeFor rounds start.tree (condition.map (·.tree)) (step.map (·.tree)) body.tree) ∧
      (∀ rounds (st : State W),
        ((execute rounds body.tree).after st).environment.names = st.environment.names) ∧
      ∀ rounds (st : State W), ((execute rounds s).after st).environment.names = st.environment.names := by
  have hs := forLoop_isBody_of_clean h
  obtain ⟨left, _, _, _, _, _, _, _, _, rfl, hl, h₁, h₂, h₃, hb, rfl⟩ :=
    (Grammar.clean_forStatement ..).mp h
  have hbody := isBody_of_clean hb
  obtain ⟨start, rfl, rfl⟩ := derived_start h₁
  obtain ⟨condition, semicolon, rfl, rfl⟩ := derived_condition h₂
  obtain ⟨step, right, rfl, rfl⟩ := derived_step h₃
  obtain ⟨o, body, rfl, rfl, -⟩ := derived_statement hb
  refine ⟨⟨left, hl⟩, start, condition, semicolon, step, right, o, body, rfl, fun rounds => ?_,
    fun rounds => names_of_isBody hbody, fun rounds => names_of_isBody hs⟩
  rw [← desugared_eq_forLoop, execute_desugared rounds start.tree _ _ hbody]

/-- `for (var a = true; a; a = false) print a;` with what is read after the first word. -/
theorem for_loop_runs_once :
    let a : Token := ⟨.identifier "a", "a", 1⟩
    let semicolon : Token := ⟨.symbol .semicolon, ";", 1⟩
    let equals : Token := ⟨.symbol .equal, "=", 1⟩
    let yes : Token := ⟨.symbol .trueWord, "true", 1⟩
    let no : Token := ⟨.symbol .falseWord, "false", 1⟩
    let input : List Token := [⟨.symbol .leftParen, "(", 1⟩, ⟨.symbol .varWord, "var", 1⟩, a, equals,
      yes, semicolon, a, semicolon, a, equals, no, ⟨.symbol .rightParen, ")", 1⟩,
      ⟨.symbol .printWord, "print", 1⟩, a, semicolon]
    let s : Statement := .block [some (.declare a (some (.literal (.boolean true)))),
      some (.loop (.name a) (.block [some (.print (.name a)),
        some (.evaluate (.assign a (.literal (.boolean false))))]))]
    (Grammar.forStatement input).Clean s [] ∧
      execute 2 s ({} : State) = .ok () ⟨{}, { accepted := "true\n".toUTF8 }⟩ ∧
      ∀ rounds (st : State), ((execute rounds s).after st).environment.names = st.environment.names := by
  intro a semicolon equals yes no input s
  have h : (Grammar.forStatement input).Clean s [] := ⟨by decide, by cbv⟩
  obtain ⟨_, _, _, _, _, _, _, _, -, -, -, hn⟩ := @for_loop_runs_as_meant Sink _ _ _ _ h
  exact ⟨h, rfl, hn⟩

end Lox
