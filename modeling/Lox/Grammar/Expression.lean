/-
# Reading expressions

Infix operators stand on a ladder of levels, from the loosest to the tightest
binding; all associate to the left. An operand is a literal, a name, an
expression in parentheses, or a prefix operator and its operand. An
assignment binds loosest of all and associates to the right; what stands left
of its `=` is read as any other expression first and then has to be a name.
If it is none, that is a complaint and the right side is dropped.

Key definitions: `Level`, `Level.ladder`, `Grammar.expression`.
-/
import Lox.Grammar.Reading
import Lox.Syntax

namespace Lox

/-- The levels of infix operators. -/
inductive Level where
  | or | and | equality | comparison | term | factor
deriving DecidableEq, Repr

namespace Level

/-- All the levels, the loosest first. -/
def ladder : List Level := [or, and, equality, comparison, term, factor]

def symbols : Level → List Symbol
  | or => [.orWord]
  | and => [.andWord]
  | equality => [.bangEqual, .equalEqual]
  | comparison => [.greater, .greaterEqual, .less, .lessEqual]
  | term => [.minus, .plus]
  | factor => [.slash, .star]

/-- Whether `t` is an operator of the level. -/
def owns (level : Level) (t : Token) : Bool :=
  match t.kind with
  | .symbol s => level.symbols.contains s
  | _ => false

/-- The operands of `or` and `and` are not always both evaluated. -/
def join : Level → Expression → Token → Expression → Expression
  | or | and => .logical
  | equality | comparison | term | factor => .binary

end Level

/-- The value of a token that is a literal. -/
def Kind.literal? : Kind → Option Value
  | .symbol .falseWord => some (.boolean false)
  | .symbol .trueWord => some (.boolean true)
  | .symbol .nilWord => some .nil
  | .number x => some (.number x)
  | .string contents => some (.string contents)
  | _ => none

/-- Whether `t` is a prefix operator. -/
def Token.isSign (t : Token) : Bool :=
  t.kind = .symbol .bang || t.kind = .symbol .minus

namespace Grammar

/-- What `target = value` is read as. -/
def assignment (target : Expression) (equals : Token) (value : Expression) :
    Expression × List Complaint :=
  match target with
  | .name token => (.assign token value, [])
  | _ => (target, [⟨some equals, .assignmentTarget⟩])

mutual

def expression (input : List Token) : Reading input.length Expression :=
  (operation Level.ladder input).andPerhaps fun rest shorter target =>
    match rest with
    | [] => .done target [] [] shorter
    | t :: after =>
      if t.kind = .symbol .equal then
        ((expression after).andPerhaps fun rest shorter value =>
          .done (assignment target t value).1 (assignment target t value).2 rest shorter).within
            (Nat.le_of_lt (Nat.lt_of_succ_lt shorter))
      else .done target [] (t :: after) shorter
termination_by (input.length, Level.ladder.length + 2)
decreasing_by
  · exact Prod.Lex.right _ (Nat.lt_succ_self _)
  · exact Prod.Lex.left _ _ (Nat.lt_of_succ_lt shorter)

/-- An operation on the given levels, or an operand. -/
def operation (levels : List Level) (input : List Token) : Reading input.length Expression :=
  match levels with
  | [] => operand input
  | level :: tighter =>
    (operation tighter input).andPerhaps fun rest shorter left =>
      operations level tighter left rest shorter
termination_by (input.length, levels.length + 1)

/-- Joins `left` with the operands that follow it on `level`. -/
def operations (level : Level) (tighter : List Level) (left : Expression) {bound : Nat}
    (input : List Token) (shorter : input.length < bound) : Reading bound Expression :=
  match input with
  | [] => .done left [] [] shorter
  | t :: after =>
    if level.owns t then
      ((operation tighter after).andPerhaps fun rest shorter right =>
        operations level tighter (level.join left t right) rest shorter).within
          (Nat.le_of_lt (Nat.lt_of_succ_lt shorter))
    else .done left [] (t :: after) shorter
termination_by (input.length, 0)

def operand (input : List Token) : Reading input.length Expression :=
  match input with
  | [] => .stop .expression []
  | t :: after =>
    if t.isSign then ((operand after).map (.unary t)).past
    else match t.kind with
      | .identifier _ => .one (.name t) after
      | .symbol .leftParen =>
        ((expression after).andThen fun rest _ inner =>
          (expect .rightParen .parenAfterExpression rest).map fun _ => .group inner).past
      | kind =>
        match kind.literal? with
        | some value => .one (.literal value) after
        | none => .stop .expression (t :: after)
termination_by (input.length, 0)

end

end Grammar
end Lox
