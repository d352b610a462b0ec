/-
# Derivations

The grammar of the language, as the type of its derivations. A derivation has
the tokens it derives (`tokens`) and the tree it stands for (`tree`); the kinds
of the tokens it is made of are part of their types.

An operator of a level joins an operation of that level, on its left, with one
of the tighter levels, so operations of one level associate to the left. A
statement that ends with an `if` without an `else` could take an `else`
that follows it; such a statement is no first branch of an `if` with an
`else`, which makes the `else` belong to the nearest `if` that can take it.

Key definitions: `Symbol.level?`, `Derivation`, `StatementDerivation`,
`ProgramDerivation`.
-/
import Lox.Grammar.Program

namespace Lox

/-- The level of an infix operator. -/
def Symbol.level? : Symbol → Option Level
  | orWord => some .or
  | andWord => some .and
  | bangEqual | equalEqual => some .equality
  | greater | greaterEqual | less | lessEqual => some .comparison
  | minus | plus => some .term
  | slash | star => some .factor
  | _ => none

/-- The kinds of token that are literals, and what they denote. -/
inductive Kind.Denotes : Kind → Value → Prop
  | no : Denotes (.symbol .falseWord) (.boolean false)
  | yes : Denotes (.symbol .trueWord) (.boolean true)
  | nil : Denotes (.symbol .nilWord) .nil
  | number (x : Float) : Denotes (.number x) (.number x)
  | string (contents : String) : Denotes (.string contents) (.string contents)

/-- A token that is the symbol `s`. -/
abbrev Spelled (s : Symbol) := { t : Token // t.kind = .symbol s }

/-- A token that is a name. -/
abbrev NameToken := { t : Token // ∃ name, t.kind = .identifier name }

/-- A token that is a prefix operator. -/
abbrev SignToken := { t : Token // t.kind = .symbol .bang ∨ t.kind = .symbol .minus }

/-- A token that is an infix operator of the level. -/
abbrev OperatorToken (level : Level) := { t : Token // ∃ s, t.kind = .symbol s ∧ s.level? = some level }

/-- What there is to derive in an expression; an operation is one on the levels listed. -/
inductive Category where
  | expression
  | operation (levels : List Level)
  | operand

/-- The levels, the loosest first. -/
def precedence : List Level := [.or, .and, .equality, .comparison, .term, .factor]

inductive Derivation : Category → Type
  | literal (t : Token) (value : Value) (h : t.kind.Denotes value) : Derivation .operand
  | name (t : NameToken) : Derivation .operand
  | group (left : Spelled .leftParen) (inner : Derivation .expression)
      (right : Spelled .rightParen) : Derivation .operand
  | unary (sign : SignToken) (inner : Derivation .operand) : Derivation .operand
  | operand (o : Derivation .operand) : Derivation (.operation [])
  | tighter {level : Level} {levels : List Level} (o : Derivation (.operation levels)) :
      Derivation (.operation (level :: levels))
  | join {level : Level} {levels : List Level} (left : Derivation (.operation (level :: levels)))
      (operator : OperatorToken level) (right : Derivation (.operation levels)) :
      Derivation (.operation (level :: levels))
  | operation (o : Derivation (.operation precedence)) : Derivation .expression
  | assign (target : NameToken) (equals : Spelled .equal) (value : Derivation .expression) :
      Derivation .expression

namespace Derivation

/-- The node that an operator of the level makes of its operands. -/
def node : Level → Expression → Token → Expression → Expression
  | .or, l, t, r | .and, l, t, r => .logical l t r
  | _, l, t, r => .binary l t r

def tokens : {c : Category} → Derivation c → List Token
  | _, literal t _ _ => [t]
  | _, name t => [t.1]
  | _, group left inner right => left.1 :: (inner.tokens ++ [right.1])
  | _, unary sign inner => sign.1 :: inner.tokens
  | _, operand o => o.tokens
  | _, tighter o => o.tokens
  | _, join left operator right => left.tokens ++ operator.1 :: right.tokens
  | _, operation o => o.tokens
  | _, assign target equals value => target.1 :: equals.1 :: value.tokens

def tree : {c : Category} → Derivation c → Expression
  | _, literal _ value _ => .literal value
  | _, name t => .name t.1
  | _, group _ inner _ => .group inner.tree
  | _, unary sign inner => .unary sign.1 inner.tree
  | _, operand o => o.tree
  | _, tighter o => o.tree
  | _, @join level _ left operator right => node level left.tree operator.1 right.tree
  | _, operation o => o.tree
  | _, assign target _ value => .assign target.1 value.tree

end Derivation

/-- `var name;` or `var name = value;`. -/
structure VariableDerivation where
  word : Spelled .varWord
  name : NameToken
  value : Option (Spelled .equal × Derivation .expression)
  semicolon : Spelled .semicolon

namespace VariableDerivation

def tokens (d : VariableDerivation) : List Token :=
  match d.value with
  | none => [d.word.1, d.name.1, d.semicolon.1]
  | some (equals, e) => d.word.1 :: d.name.1 :: equals.1 :: (e.tokens ++ [d.semicolon.1])

def tree (d : VariableDerivation) : Statement :=
  .declare d.name.1 (d.value.map fun (_, e) => e.tree)

end VariableDerivation

/-- The first clause of a `for`. -/
inductive StartDerivation where
  | absent (semicolon : Spelled .semicolon)
  | declare (v : VariableDerivation)
  | expression (e : Derivation .expression) (semicolon : Spelled .semicolon)

namespace StartDerivation

def tokens : StartDerivation → List Token
  | absent semicolon => [semicolon.1]
  | declare v => v.tokens
  | expression e semicolon => e.tokens ++ [semicolon.1]

def tree : StartDerivation → Option Statement
  | absent _ => none
  | declare v => some v.tree
  | expression e _ => some (.evaluate e.tree)

end StartDerivation

/-- The tokens of an expression that may be left out. -/
def optionalTokens : Option (Derivation .expression) → List Token
  | none => []
  | some e => e.tokens

/-- What a `for` loop stands for: the step runs after the body in a block around
both, a start clause before the loop in a block around both, and a condition
that is left out is true. -/
def desugared (start : Option Statement) (condition step : Option Expression) (body : Statement) :
    Statement :=
  let condition := condition.getD (.literal (.boolean true))
  match start, step with
  | none, none => .loop condition body
  | none, some e => .loop condition (.block [some body, some (.evaluate e)])
  | some s, none => .block [some s, some (.loop condition body)]
  | some s, some e =>
    .block [some s, some (.loop condition (.block [some body, some (.evaluate e)]))]

mutual

/-- A statement, by whether it could take an `else` that follows it. -/
inductive StatementDerivation : Bool → Type
  | print (word : Spelled .printWord) (value : Derivation .expression)
      (semicolon : Spelled .semicolon) : StatementDerivation false
  | evaluate (e : Derivation .expression) (semicolon : Spelled .semicolon) :
      StatementDerivation false
  | block (left : Spelled .leftBrace) (body : ProgramDerivation) (right : Spelled .rightBrace) :
      StatementDerivation false
  | ifThen {o : Bool} (word : Spelled .ifWord) (left : Spelled .leftParen)
      (condition : Derivation .expression) (right : Spelled .rightParen)
      (yes : StatementDerivation o) : StatementDerivation true
  | ifElse {o : Bool} (word : Spelled .ifWord) (left : Spelled .leftParen)
      (condition : Derivation .expression) (right : Spelled .rightParen)
      (yes : StatementDerivation false) (elseWord : Spelled .elseWord)
      (no : StatementDerivation o) : StatementDerivation o
  | whileLoop {o : Bool} (word : Spelled .whileWord) (left : Spelled .leftParen)
      (condition : Derivation .expression) (right : Spelled .rightParen)
      (body : StatementDerivation o) : StatementDerivation o
  | forLoop {o : Bool} (word : Spelled .forWord) (left : Spelled .leftParen)
      (start : StartDerivation) (condition : Option (Derivation .expression))
      (semicolon : Spelled .semicolon) (step : Option (Derivation .expression))
      (right : Spelled .rightParen) (body : StatementDerivation o) : StatementDerivation o

/-- A list of declarations. -/
inductive ProgramDerivation : Type
  | nil
  | declare (v : VariableDerivation) (rest : ProgramDerivation)
  | statement {o : Bool} (s : StatementDerivation o) (rest : ProgramDerivation)

end

mutual

def StatementDerivation.tokens : {o : Bool} → StatementDerivation o → List Token
  | _, .print word value semicolon => word.1 :: (value.tokens ++ [semicolon.1])
  | _, .evaluate e semicolon => e.tokens ++ [semicolon.1]
  | _, .block left body right => left.1 :: (body.tokens ++ [right.1])
  | _, .ifThen word left condition right yes =>
    word.1 :: left.1 :: (condition.tokens ++ right.1 :: yes.tokens)
  | _, .ifElse word left condition right yes elseWord no =>
    word.1 :: left.1 :: (condition.tokens ++ right.1 :: (yes.tokens ++ elseWord.1 :: no.tokens))
  | _, .whileLoop word left condition right body =>
    word.1 :: left.1 :: (condition.tokens ++ right.1 :: body.tokens)
  | _, .forLoop word left start condition semicolon step right body =>
    word.1 :: left.1 :: (start.tokens ++ (optionalTokens condition ++
      semicolon.1 :: (optionalTokens step ++ right.1 :: body.tokens)))

def ProgramDerivation.tokens : ProgramDerivation → List Token
  | .nil => []
  | .declare v rest => v.tokens ++ rest.tokens
  | .statement s rest => s.tokens ++ rest.tokens

end

mutual

def StatementDerivation.tree : {o : Bool} → StatementDerivation o → Statement
  | _, .print _ value _ => .print value.tree
  | _, .evaluate e _ => .evaluate e.tree
  | _, .block _ body _ => .block (body.trees.map some)
  | _, .ifThen _ _ condition _ yes => .branch condition.tree yes.tree none
  | _, .ifElse _ _ condition _ yes _ no => .branch condition.tree yes.tree (some no.tree)
  | _, .whileLoop _ _ condition _ body => .loop condition.tree body.tree
  | _, .forLoop _ _ start condition _ step _ body =>
    desugared start.tree (condition.map (·.tree)) (step.map (·.tree)) body.tree

def ProgramDerivation.trees : ProgramDerivation → List Statement
  | .nil => []
  | .declare v rest => v.tree :: rest.trees
  | .statement s rest => s.tree :: rest.trees

end

end Lox
