/-
# Readings

Reading a phrase at the front of a token list either comes to something and
leaves the tokens after it, or gets stuck at the first token that cannot go
on. Both may come with complaints that did not stop it. A reading carries the
proof that it left fewer tokens than its bound, so phrases that contain
phrases are read by recursion on the number of tokens left.

Key definitions: `Problem`, `Complaint`, `Reading`, `Reading.andThen`, `expect`.
Key theorems: `Reading.andPerhaps_done`, `Reading.andPerhaps_stuck`.
-/
import Lox.Token
import Lox.Diagnostic

namespace Lox

/-- What is wrong with a token. -/
inductive Problem where
  | variableName
  | semicolonAfterVariable
  | parenAfterFor
  | semicolonAfterCondition
  | parenAfterClauses
  | parenAfterWhile
  | parenAfterCondition
  | parenAfterIf
  | parenAfterIfCondition
  | braceAfterBlock
  | semicolonAfterValue
  | semicolonAfterExpression
  | parenAfterExpression
  | expression
  | assignmentTarget
deriving DecidableEq, Repr

def Problem.message : Problem → String
  | variableName => "Expect variable name."
  | semicolonAfterVariable => "Expect ';' after variable declaration."
  | parenAfterFor => "Expect '(' after 'for'."
  | semicolonAfterCondition => "Expect ';' after loop condition."
  | parenAfterClauses => "Expect ')' after for clauses."
  | parenAfterWhile => "Expect '(' after 'while'."
  | parenAfterCondition => "Expect ')' after condition."
  | parenAfterIf => "Expect '(' after 'if'."
  | parenAfterIfCondition => "Expect ')' after if condition."
  | braceAfterBlock => "Expect '\x7d' after block."
  | semicolonAfterValue => "Expect ';' after value."
  | semicolonAfterExpression => "Expect ';' after expression."
  | parenAfterExpression => "Expect ')' after expression."
  | expression => "Expect expression."
  | assignmentTarget => "Invalid assignment target."

/-- A problem and the token it is blamed on, `none` at the end of the input. -/
structure Complaint where
  blamed : Option Token
  problem : Problem
deriving DecidableEq

/-- The diagnostic of a complaint about an input that ends on `endLine`. -/
def Complaint.diagnostic (endLine : Nat) (c : Complaint) : Diagnostic :=
  match c.blamed with
  | some token => .static token.line (" at '" ++ token.lexeme ++ "'") c.problem.message
  | none => .static endLine " at end" c.problem.message

/-- What reading a phrase comes to: a value and fewer than `bound` tokens
after it, or a problem with the first of at most `bound` tokens. -/
inductive Reading (bound : Nat) (α : Type) where
  | done (value : α) (complaints : List Complaint) (rest : List Token)
      (shorter : rest.length < bound)
  | stuck (problem : Problem) (complaints : List Complaint) (rest : List Token)
      (within : rest.length ≤ bound)

namespace Reading

variable {m n : Nat} {α β : Type}

/-- The same reading under a larger bound. -/
def within (h : m ≤ n) (r : Reading m α) : Reading n α :=
  match r with
  | done value complaints rest shorter => done value complaints rest (Nat.lt_of_lt_of_le shorter h)
  | stuck problem complaints rest within => stuck problem complaints rest (Nat.le_trans within h)

/-- The same reading for an input with one more token in front. -/
def past (r : Reading n α) : Reading (n + 1) α := r.within (Nat.le_succ n)

def map (f : α → β) : Reading n α → Reading n β
  | done value complaints rest shorter => done (f value) complaints rest shorter
  | stuck problem complaints rest within => stuck problem complaints rest within

/-- The reading with complaints that came before it. -/
def noting (before : List Complaint) : Reading n α → Reading n α
  | done value complaints rest shorter => done value (before ++ complaints) rest shorter
  | stuck problem complaints rest within => stuck problem (before ++ complaints) rest within

/-- Goes on after a phrase with one that may be empty. -/
def andPerhaps (r : Reading n α)
    (next : (rest : List Token) → rest.length < n → α → Reading n β) : Reading n β :=
  match r with
  | done value complaints rest shorter => (next rest shorter value).noting complaints
  | stuck problem complaints rest within => stuck problem complaints rest within

/-- Goes on after a phrase with another one. -/
def andThen (r : Reading n α)
    (next : (rest : List Token) → rest.length < n → α → Reading rest.length β) : Reading n β :=
  r.andPerhaps fun rest shorter value => (next rest shorter value).within (Nat.le_of_lt shorter)

theorem andPerhaps_done (value : α) (complaints : List Complaint) (rest : List Token)
    (shorter : rest.length < n)
    (next : (rest : List Token) → rest.length < n → α → Reading n β) :
    (done value complaints rest shorter).andPerhaps next =
      (next rest shorter value).noting complaints := rfl

theorem andPerhaps_stuck (problem : Problem) (complaints : List Complaint) (rest : List Token)
    (within : rest.length ≤ n)
    (next : (rest : List Token) → rest.length < n → α → Reading n β) :
    (stuck problem complaints rest within).andPerhaps next =
      stuck problem complaints rest within := rfl

/-- Reads the one token in front of `after`. -/
def one (value : α) (after : List Token) : Reading (after.length + 1) α :=
  done value [] after (Nat.lt_succ_self _)

/-- Gets stuck before the first token. -/
def stop (problem : Problem) (input : List Token) : Reading input.length α :=
  stuck problem [] input (Nat.le_refl _)

end Reading

/-- Reads one token, which has to be `symbol`. -/
def expect (symbol : Symbol) (problem : Problem) (input : List Token) : Reading input.length Token :=
  match input with
  | [] => .stop problem []
  | t :: rest =>
    if t.kind = .symbol symbol then .one t rest
    else .stop problem (t :: rest)

end Lox
