/-
# Syntax trees

The trees of expressions and statements. Operators and names are kept as the
tokens they were written with, since an error while the program runs is
reported on their line. A declaration that could not be read leaves `none`
in the list it stands in. There is no `for`: it is written with a block and
a loop.

Key definitions: `Expression`, `Statement`, `Declarations`.
-/
import Lox.Token
import Lox.Value

namespace Lox

inductive Expression where
  | literal (value : Value)
  | group (inner : Expression)
  | name (token : Token)
  | assign (target : Token) (value : Expression)
  | unary (operator : Token) (operand : Expression)
  | binary (left : Expression) (operator : Token) (right : Expression)
  | logical (left : Expression) (operator : Token) (right : Expression)
deriving DecidableEq, Inhabited

inductive Statement where
  | print (value : Expression)
  | evaluate (e : Expression)
  | declare (name : Token) (initializer : Option Expression)
  | block (body : List (Option Statement))
  | branch (condition : Expression) (yes : Statement) (no : Option Statement)
  | loop (condition : Expression) (body : Statement)
deriving Inhabited

/-- A list of declarations, `none` for each that could not be read. -/
abbrev Declarations := List (Option Statement)

namespace Statement

mutual

/-- Structural equality, tokens included. -/
def beq : Statement → Statement → Bool
  | print e, print f => e == f
  | evaluate e, evaluate f => e == f
  | declare a e, declare b f => a == b && e == f
  | block ds, block es => beqAll ds es
  | branch c s none, branch d t none => c == d && beq s t
  | branch c s (some u), branch d t (some v) => c == d && beq s t && beq u v
  | loop c s, loop d t => c == d && beq s t
  | _, _ => false

def beqAll : Declarations → Declarations → Bool
  | [], [] => true
  | none :: ds, none :: es => beqAll ds es
  | some s :: ds, some t :: es => beq s t && beqAll ds es
  | _, _ => false

end

instance : BEq Statement := ⟨beq⟩

end Statement
end Lox
