/-
# Outlines

The outline of a tree is its text with every node in parentheses, the
operator first. A program is outlined declaration by declaration, one a line;
a declaration that could not be read shows as `<error>`.

Key definitions: `Expression.outline`, `Statement.outline`, `outline`.
-/
import Lox.Syntax

namespace Lox

def Expression.outline : Expression → String
  | literal value => value.text
  | group inner => "(group " ++ inner.outline ++ ")"
  | name token => token.lexeme
  | assign target value => "(= " ++ target.lexeme ++ " " ++ value.outline ++ ")"
  | unary operator operand => "(" ++ operator.lexeme ++ " " ++ operand.outline ++ ")"
  | binary left operator right | logical left operator right =>
    "(" ++ operator.lexeme ++ " " ++ left.outline ++ " " ++ right.outline ++ ")"

/-- What stands for a declaration that could not be read. -/
def unreadable : String := "<error>"

mutual

def Statement.outline : Statement → String
  | .print value => "(print " ++ value.outline ++ ")"
  | .evaluate e => "(; " ++ e.outline ++ ")"
  | .declare name none => "(var " ++ name.lexeme ++ ")"
  | .declare name (some e) => "(var " ++ name.lexeme ++ " " ++ e.outline ++ ")"
  | .block body => "(block" ++ Statement.outlineBody body ++ ")"
  | .branch condition yes none => "(if " ++ condition.outline ++ " " ++ yes.outline ++ ")"
  | .branch condition yes (some no) =>
    "(if " ++ condition.outline ++ " " ++ yes.outline ++ " " ++ no.outline ++ ")"
  | .loop condition body => "(while " ++ condition.outline ++ " " ++ body.outline ++ ")"

/-- The outlines of a block's declarations, a space before each. -/
def Statement.outlineBody : Declarations → String
  | [] => ""
  | none :: rest => " " ++ unreadable ++ Statement.outlineBody rest
  | some s :: rest => " " ++ s.outline ++ Statement.outlineBody rest

end

/-- The outline of a program. -/
def outline (declarations : Declarations) : String :=
  "\n".intercalate (declarations.map fun
    | some s => s.outline
    | none => unreadable)

end Lox
