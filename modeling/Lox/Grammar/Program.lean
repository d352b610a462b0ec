/-
# Reading programs

A program is a list of declarations, and so is a block. A declaration that
gets stuck is complained about and left out, and reading goes on at the next
place where a statement may start (`recover`): after a semicolon or before
one of the keywords that start a statement. Braces are skipped on the way
like other tokens. A `for` loop is read as a block around a `while` loop.

The token that ends the input and whatever may follow it are not part of a
program; a complaint about the end of the input stands on that token's line.

Key definitions: `Grammar.recover`, `Grammar.statement`, `Grammar.declaration`,
`Grammar.program`, `Parse`, `parse`.
-/
import Lox.Grammar.Expression

namespace Lox
namespace Grammar

/-- Skips to the next place where a statement may start, given the token before. -/
def recoverAfter (previous : Token) : List Token → List Token
  | [] => []
  | t :: rest =>
    if previous.kind = .symbol .semicolon || t.kind.startsStatement then t :: rest
    else recoverAfter t rest

/-- Skips at least one token, if there is one, and then to the next place where
a statement may start. -/
def recover : List Token → List Token
  | [] => []
  | t :: rest => recoverAfter t rest

theorem recoverAfter_length (previous : Token) :
    ∀ input : List Token, (recoverAfter previous input).length ≤ input.length
  | [] => Nat.le_refl _
  | t :: rest => by
    unfold recoverAfter
    split
    · exact Nat.le_refl _
    · exact Nat.le_succ_of_le (recoverAfter_length t rest)

theorem recover_length {bound : Nat} (h : 0 < bound) :
    ∀ input : List Token, input.length ≤ bound → (recover input).length < bound
  | [], _ => h
  | t :: rest, hb => Nat.lt_of_lt_of_le (Nat.lt_succ_of_le (recoverAfter_length t rest)) hb

/-- What reading a declaration leaves: its entry in the list, complaints, and
fewer than `bound` tokens. -/
structure Declared (bound : Nat) where
  entry : Option Statement
  complaints : List Complaint
  rest : List Token
  shorter : rest.length < bound

/-- A declaration that got stuck is complained about and left out. -/
def Declared.ofReading {bound : Nat} (h : 0 < bound) : Reading bound Statement → Declared bound
  | .done s complaints rest shorter => ⟨some s, complaints, rest, shorter⟩
  | .stuck problem complaints rest within =>
    ⟨none, complaints ++ [⟨rest.head?, problem⟩], recover rest, recover_length h rest within⟩

/-- What follows the name of a variable: a semicolon, with `=` and a value before it or without. -/
def initializer (name : Token) (input : List Token) : Reading input.length Statement :=
  match input with
  | [] => .stop .semicolonAfterVariable []
  | t :: after =>
    if t.kind = .symbol .equal then
      ((expression after).andThen fun rest _ value =>
        (expect .semicolon .semicolonAfterVariable rest).map fun _ =>
          .declare name (some value)).past
    else (expect .semicolon .semicolonAfterVariable (t :: after)).map fun _ => .declare name none

/-- The rest of a variable declaration, from the name on. -/
def variableDeclaration (input : List Token) : Reading input.length Statement :=
  match input with
  | [] => .stop .variableName []
  | name :: after =>
    match name.kind with
    | .identifier _ => (initializer name after).past
    | _ => .stop .variableName (name :: after)

/-- The rest of a print statement, from the value on. -/
def printStatement (input : List Token) : Reading input.length Statement :=
  (expression input).andThen fun rest _ value =>
    (expect .semicolon .semicolonAfterValue rest).map fun _ => .print value

def expressionStatement (input : List Token) : Reading input.length Statement :=
  (expression input).andThen fun rest _ e =>
    (expect .semicolon .semicolonAfterExpression rest).map fun _ => .evaluate e

/-- The first clause of a `for`, with its semicolon. -/
def startClause (input : List Token) : Reading input.length (Option Statement) :=
  match input with
  | [] => (expressionStatement []).map some
  | t :: after =>
    match t.kind with
    | .symbol .semicolon => .one none after
    | .symbol .varWord => ((variableDeclaration after).map some).past
    | _ => (expressionStatement (t :: after)).map some

/-- The condition of a `for`, with the semicolon after it. -/
def loopCondition (input : List Token) : Reading input.length Expression :=
  (expression input).andThen fun rest _ condition =>
    (expect .semicolon .semicolonAfterCondition rest).map fun _ => condition

/-- The second clause of a `for`, with its semicolon: true if it is empty. -/
def conditionClause (input : List Token) : Reading input.length Expression :=
  match input with
  | [] => loopCondition []
  | t :: after =>
    if t.kind = .symbol .semicolon then .one (.literal (.boolean true)) after
    else loopCondition (t :: after)

/-- The step of a `for`, with the parenthesis after it. -/
def loopStep (input : List Token) : Reading input.length Expression :=
  (expression input).andThen fun rest _ step =>
    (expect .rightParen .parenAfterClauses rest).map fun _ => step

/-- The third clause of a `for`, with the parenthesis after it. -/
def stepClause (input : List Token) : Reading input.length (Option Expression) :=
  match input with
  | [] => (loopStep []).map some
  | t :: after =>
    if t.kind = .symbol .rightParen then .one none after
    else (loopStep (t :: after)).map some

/-- A `for` loop as a `while` loop: the step runs after the body, and a start
clause stands before the loop in a block of its own. -/
def forLoop (start : Option Statement) (condition : Expression) (step : Option Expression)
    (body : Statement) : Statement :=
  let loop := Statement.loop condition <|
    match step with
    | none => body
    | some e => .block [some body, some (.evaluate e)]
  match start with
  | none => loop
  | some s => .block [some s, some loop]

mutual

/-- A declaration at the front of `t :: after`. -/
def declaration (t : Token) (after : List Token) : Declared (after.length + 1) :=
  if t.kind = .symbol .varWord then .ofReading (Nat.succ_pos _) (variableDeclaration after).past
  else .ofReading (Nat.succ_pos _) (statement (t :: after))
termination_by (after.length + 1, 1)

def statement (input : List Token) : Reading input.length Statement :=
  match input with
  | [] => expressionStatement []
  | t :: after =>
    match t.kind with
    | .symbol .ifWord => (ifStatement after).past
    | .symbol .printWord => (printStatement after).past
    | .symbol .leftBrace => ((block after).map .block).past
    | .symbol .whileWord => (whileStatement after).past
    | .symbol .forWord => (forStatement after).past
    | _ => expressionStatement (t :: after)
termination_by (input.length, 0)

/-- The declarations of a block, from after its brace to the closing one. -/
def block (input : List Token) : Reading input.length Declarations :=
  match input with
  | [] => .stop .braceAfterBlock []
  | t :: after =>
    if t.kind = .symbol .rightBrace then .one [] after
    else
      match declaration t after with
      | ⟨entry, complaints, rest, shorter⟩ =>
        (((block rest).map (entry :: ·)).noting complaints).within (Nat.le_of_lt shorter)
termination_by (input.length, 2)

/-- The rest of an `if`. An `else` belongs to the nearest one. -/
def ifStatement (input : List Token) : Reading input.length Statement :=
  (expect .leftParen .parenAfterIf input).andThen fun rest _ _ =>
  (expression rest).andThen fun rest _ condition =>
  (expect .rightParen .parenAfterIfCondition rest).andThen fun rest _ _ =>
  (statement rest).andPerhaps fun rest shorter yes =>
    match rest with
    | [] => .done (.branch condition yes none) [] [] shorter
    | t :: after =>
      if t.kind = .symbol .elseWord then
        ((statement after).map fun no => .branch condition yes (some no)).within
          (Nat.le_of_lt (Nat.lt_of_succ_lt shorter))
      else .done (.branch condition yes none) [] (t :: after) shorter
termination_by (input.length, 0)
decreasing_by all_goals exact Prod.Lex.left _ _ (by grind)

/-- The rest of a `while`. -/
def whileStatement (input : List Token) : Reading input.length Statement :=
  (expect .leftParen .parenAfterWhile input).andThen fun rest _ _ =>
  (expression rest).andThen fun rest _ condition =>
  (expect .rightParen .parenAfterCondition rest).andThen fun rest _ _ =>
  (statement rest).map (.loop condition)
termination_by (input.length, 0)

/-- The rest of a `for`. -/
def forStatement (input : List Token) : Reading input.length Statement :=
  (expect .leftParen .parenAfterFor input).andThen fun rest _ _ =>
  (startClause rest).andThen fun rest _ start =>
  (conditionClause rest).andThen fun rest _ condition =>
  (stepClause rest).andThen fun rest _ step =>
  (statement rest).map (forLoop start condition step)
termination_by (input.length, 0)

end

/-- All the declarations of `input` and the complaints about them. -/
def program (input : List Token) : Declarations × List Complaint :=
  match input with
  | [] => ([], [])
  | t :: after =>
    match declaration t after with
    | ⟨entry, complaints, rest, _⟩ =>
      let (later, more) := program rest
      (entry :: later, complaints ++ more)
termination_by input.length

theorem program_cons (t : Token) (after : List Token) :
    program (t :: after) =
      ((declaration t after).entry :: (program (declaration t after).rest).1,
        (declaration t after).complaints ++ (program (declaration t after).rest).2) := by
  rw [program]

end Grammar

/-- A program as read: its declarations, the complaints about it and the line
its input ends on. -/
structure Parse where
  declarations : Declarations
  complaints : List Complaint
  endLine : Nat

def Parse.diagnostics (p : Parse) : List Diagnostic :=
  p.complaints.map (Complaint.diagnostic p.endLine)

/-- The line of the token that ends the input, or of the last one if none does. -/
def endLine (tokens : List Token) : Nat :=
  match tokens.find? Token.isEnd with
  | some t => t.line
  | none => (tokens.getLast?.map Token.line).getD 1

/-- Reads the program before the token that ends the input. -/
def parse (tokens : List Token) : Parse :=
  let (declarations, complaints) := Grammar.program (tokens.takeWhile (!·.isEnd))
  ⟨declarations, complaints, endLine tokens⟩

end Lox
