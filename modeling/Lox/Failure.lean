/-
# What can stop a program

A program that runs stops early when an expression cannot be evaluated or a
value cannot be written; both are failures to report. A tree with an operator
that no program is read with stops it too, and so does a loop that does not
end within the rounds it is given.

Key definitions: `Cause`, `Failure`, `Stop`.
-/
import Lox.Token
import Lox.Diagnostic

namespace Lox

/-- Why an expression cannot be evaluated. -/
inductive Cause where
  | operandNotNumber
  | operandsNotAddable
  | operandsNotNumbers
  | undefinedVariable (name : String)
deriving DecidableEq, Repr

def Cause.message : Cause → String
  | operandNotNumber => "Operand must be a number."
  | operandsNotAddable => "Operands must be two numbers or two strings."
  | operandsNotNumbers => "Operands must be numbers."
  | undefinedVariable name => "Undefined variable '" ++ name ++ "'."

/-- What a program is reported to have failed of. -/
inductive Failure where
  | evaluation (line : Nat) (cause : Cause)
  | output (reason : String)
deriving DecidableEq, Repr

def Failure.diagnostic : Failure → Diagnostic
  | evaluation line cause => .evaluation line cause.message
  | output reason => .output reason

/-- The operators for which there is nothing to do. -/
inductive Malformed where
  | unaryOperator
  | binaryOperator
deriving DecidableEq, Repr

/-- Why a program stopped before its end. -/
inductive Stop where
  | failure (f : Failure)
  | malformed (m : Malformed)
  | outOfRounds
deriving DecidableEq, Repr

/-- The failure of the operator or name `token`. -/
def Stop.at (token : Token) (cause : Cause) : Stop :=
  .failure (.evaluation token.line cause)

end Lox
