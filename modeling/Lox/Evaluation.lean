/-
# Evaluating expressions

An expression is evaluated in an environment, operands from left to right,
and may change it by assignments. What was assigned before an evaluation
fails stays assigned.

Key definitions: `Action`, `evaluate`, `lookup`, `assign`.
-/
import Lox.Environment
import Lox.Failure
import Lox.Syntax

namespace Lox

/-- A step of a program on a state: it gives a value or stops, and leaves a
state in both cases. -/
abbrev Action (σ α : Type) := EStateM Stop σ α

/-- What a prefix operator makes of a value. -/
def applyUnary (operator : Token) (v : Value) : Except Stop Value :=
  match operator.kind, v with
  | .symbol .minus, .number x => .ok (.number (-x))
  | .symbol .minus, _ => .error (.at operator .operandNotNumber)
  | .symbol .bang, v => .ok (.boolean (!v.isTruthy))
  | _, _ => .error (.malformed .unaryOperator)

/-- The operators on two numbers alone. -/
def Kind.numeric? : Kind → Option (Float → Float → Value)
  | .symbol .minus => some fun x y => .number (x - y)
  | .symbol .slash => some fun x y => .number (x / y)
  | .symbol .star => some fun x y => .number (x * y)
  | .symbol .greater => some fun x y => .boolean (x > y)
  | .symbol .greaterEqual => some fun x y => .boolean (x ≥ y)
  | .symbol .less => some fun x y => .boolean (x < y)
  | .symbol .lessEqual => some fun x y => .boolean (x ≤ y)
  | _ => none

/-- What an infix operator makes of two values; a plus adds numbers and joins strings. -/
def applyBinary (operator : Token) (l r : Value) : Except Stop Value :=
  match operator.kind with
  | .symbol .equalEqual => .ok (.boolean (l.equals r))
  | .symbol .bangEqual => .ok (.boolean (!l.equals r))
  | .symbol .plus =>
    match l, r with
    | .number x, .number y => .ok (.number (x + y))
    | .string s, .string t => .ok (.string (s ++ t))
    | _, _ => .error (.at operator .operandsNotAddable)
  | kind =>
    match l, r with
    | .number x, .number y =>
      match kind.numeric? with
      | some f => .ok (f x y)
      | none => .error (.malformed .binaryOperator)
    | _, _ => .error (.at operator .operandsNotNumbers)

/-- The value of the variable called `name`. -/
def lookup (name : Token) : Action Environment Value := fun env =>
  match env.get? name.lexeme with
  | some v => .ok v env
  | none => .error (.at name (.undefinedVariable name.lexeme)) env

/-- Assigns to the variable called `name`, which has to be there. -/
def assign (name : Token) (v : Value) : Action Environment Unit := fun env =>
  match env.assign? name.lexeme v with
  | some env => .ok () env
  | none => .error (.at name (.undefinedVariable name.lexeme)) env

/-- `or` keeps a left value that is truthy, any other operator one that is not. -/
def keepsLeft (operator : Token) (left : Value) : Bool :=
  left.isTruthy == (operator.kind = .symbol .orWord)

def evaluate : Expression → Action Environment Value
  | .literal v => pure v
  | .group inner => evaluate inner
  | .name token => lookup token
  | .assign target value => do
    let v ← evaluate value
    assign target v
    pure v
  | .unary operator operand => do
    let v ← evaluate operand
    MonadExcept.ofExcept (applyUnary operator v)
  | .binary left operator right => do
    let l ← evaluate left
    let r ← evaluate right
    MonadExcept.ofExcept (applyBinary operator l r)
  | .logical left operator right => do
    let l ← evaluate left
    if keepsLeft operator l then pure l else evaluate right

end Lox
