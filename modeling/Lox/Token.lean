/-
# Tokens

A token is a piece of a program that means something: what kind of piece it
is, its lexeme (the text itself) and its line. Kinds that are always spelled
alike are the symbols; the others carry what they stand for.

Key definitions: `Symbol`, `Kind`, `Token`, `keywords`, `Token.text`.
-/
import Lox.Numeral

namespace Lox

/-- The tokens with a fixed spelling: punctuation, operators and keywords. -/
inductive Symbol where
  | leftParen | rightParen | leftBrace | rightBrace
  | comma | dot | minus | plus | semicolon | slash | star
  | bang | bangEqual | equal | equalEqual
  | greater | greaterEqual | less | lessEqual
  | andWord | classWord | elseWord | falseWord | funWord | forWord | ifWord | nilWord | orWord
  | printWord | returnWord | superWord | thisWord | trueWord | varWord | whileWord
deriving DecidableEq, Repr

namespace Symbol

/-- The name a token listing gives the symbol. -/
def label : Symbol → String
  | leftParen => "LEFT_PAREN"
  | rightParen => "RIGHT_PAREN"
  | leftBrace => "LEFT_BRACE"
  | rightBrace => "RIGHT_BRACE"
  | comma => "COMMA"
  | dot => "DOT"
  | minus => "MINUS"
  | plus => "PLUS"
  | semicolon => "SEMICOLON"
  | slash => "SLASH"
  | star => "STAR"
  | bang => "BANG"
  | bangEqual => "BANG_EQUAL"
  | equal => "EQUAL"
  | equalEqual => "EQUAL_EQUAL"
  | greater => "GREATER"
  | greaterEqual => "GREATER_EQUAL"
  | less => "LESS"
  | lessEqual => "LESS_EQUAL"
  | andWord => "AND"
  | classWord => "CLASS"
  | elseWord => "ELSE"
  | falseWord => "FALSE"
  | funWord => "FUN"
  | forWord => "FOR"
  | ifWord => "IF"
  | nilWord => "NIL"
  | orWord => "OR"
  | printWord => "PRINT"
  | returnWord => "RETURN"
  | superWord => "SUPER"
  | thisWord => "THIS"
  | trueWord => "TRUE"
  | varWord => "VAR"
  | whileWord => "WHILE"

/-- The symbol of one character. -/
def ofChar? : Char → Option Symbol
  | '(' => some leftParen
  | ')' => some rightParen
  | '\x7b' => some leftBrace
  | '\x7d' => some rightBrace
  | ',' => some comma
  | '.' => some dot
  | '-' => some minus
  | '+' => some plus
  | ';' => some semicolon
  | '/' => some slash
  | '*' => some star
  | '!' => some bang
  | '=' => some equal
  | '>' => some greater
  | '<' => some less
  | _ => none

/-- The symbol that a following `=` turns this one into. -/
def withEqual? : Symbol → Option Symbol
  | bang => some bangEqual
  | equal => some equalEqual
  | greater => some greaterEqual
  | less => some lessEqual
  | _ => none

/-- The keywords at which a new statement is taken to start after an error. -/
def startsStatement : Symbol → Bool
  | classWord | funWord | varWord | forWord | ifWord | whileWord | printWord | returnWord => true
  | _ => false

end Symbol

/-- The words that are not identifiers. -/
def keywords : List (String × Symbol) :=
  [("and", .andWord), ("class", .classWord), ("else", .elseWord), ("false", .falseWord),
    ("for", .forWord), ("fun", .funWord), ("if", .ifWord), ("nil", .nilWord), ("or", .orWord),
    ("print", .printWord), ("return", .returnWord), ("super", .superWord), ("this", .thisWord),
    ("true", .trueWord), ("var", .varWord), ("while", .whileWord)]

/-- What a token stands for. -/
inductive Kind where
  | symbol (symbol : Symbol)
  | identifier (name : String)
  | string (contents : String)
  | number (value : Float)
  | endOfInput
deriving DecidableEq

namespace Kind

/-- The name a token listing gives the kind. -/
def label : Kind → String
  | symbol s => s.label
  | identifier _ => "IDENTIFIER"
  | string _ => "STRING"
  | number _ => "NUMBER"
  | endOfInput => "EOF"

/-- A word is a keyword or else an identifier. -/
def ofWord (word : String) : Kind :=
  match keywords.lookup word with
  | some s => symbol s
  | none => identifier word

def startsStatement : Kind → Bool
  | symbol s => s.startsStatement
  | _ => false

end Kind

structure Token where
  kind : Kind
  lexeme : String
  line : Nat
deriving DecidableEq

namespace Token

def isEnd (t : Token) : Bool :=
  match t.kind with
  | .endOfInput => true
  | _ => false

/-- The line a token listing shows: kind, lexeme and, where there is one, the
value of the literal. -/
def text (t : Token) : String :=
  t.kind.label ++ " " ++ t.lexeme ++
    match t.kind with
    | .string contents => " " ++ contents
    | .number value => " " ++ Numeral.text value
    | _ => ""

end Token
end Lox
