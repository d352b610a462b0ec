/-
# Pieces of a source text

A source is cut from left to right, with no gap and no overlap, into pieces:
tokens, single blanks, comments, characters that belong nowhere and at most
one string without an end, which is then the last piece. Each piece takes all
the characters it can. Only ASCII letters and digits form words and numbers.
The tokens and the faults of the source are read off its pieces; both stand
on the line where their piece ends.

Key definitions: `Piece`, `Piece.first`, `Piece.cut`, `Scan`, `scan`.
Key theorems: `Piece.first_append`, `Piece.cut_text`.
-/
import Lox.Token
import Lox.Diagnostic

namespace Lox

/-- What a piece of the source is. -/
inductive Piece.Role where
  | token (kind : Kind)
  | blank
  | comment
  | unexpected
  | unterminated

structure Piece where
  text : List Char
  role : Piece.Role

namespace Piece

def isBlank (c : Char) : Bool := c = ' ' || c = '\r' || c = '\t' || c = '\n'

/-- The quotation mark around a string. -/
def quote : Char := '\x22'

def startsWord (c : Char) : Bool := c.isAlpha || c = '_'

def continuesWord (c : Char) : Bool := startsWord c || c.isDigit

/-- The piece that a quotation mark starts: a string, if another one follows. -/
def string (rest : List Char) : Piece × List Char :=
  match rest.dropWhile (· ≠ quote) with
  | [] => (⟨quote :: rest, .unterminated⟩, [])
  | _ :: after =>
    let contents := rest.takeWhile (· ≠ quote)
    (⟨quote :: contents ++ [quote], .token (.string (String.ofList contents))⟩, after)

/-- The piece that a digit starts. A point belongs to it only if a digit follows. -/
def number (c : Char) (rest : List Char) : Piece × List Char :=
  let whole := c :: rest.takeWhile Char.isDigit
  match rest.dropWhile Char.isDigit with
  | '.' :: after =>
    match after.takeWhile Char.isDigit with
    | [] => (⟨whole, .token (.number (Numeral.read whole []))⟩, '.' :: after)
    | part =>
      (⟨whole ++ '.' :: part, .token (.number (Numeral.read whole part))⟩,
        after.dropWhile Char.isDigit)
  | after => (⟨whole, .token (.number (Numeral.read whole []))⟩, after)

def word (c : Char) (rest : List Char) : Piece × List Char :=
  let text := c :: rest.takeWhile continuesWord
  (⟨text, .token (Kind.ofWord (String.ofList text))⟩, rest.dropWhile continuesWord)

/-- The piece of a symbol of one character, or of two when `=` can join it. -/
def operator (s : Symbol) (c : Char) (rest : List Char) : Piece × List Char :=
  match s.withEqual?, rest with
  | some joined, '=' :: after => (⟨[c, '='], .token (.symbol joined)⟩, after)
  | _, rest => (⟨[c], .token (.symbol s)⟩, rest)

/-- The piece that a slash starts: a comment ends before the next newline. -/
def slash (rest : List Char) : Piece × List Char :=
  match rest with
  | '/' :: after => (⟨'/' :: '/' :: after.takeWhile (· ≠ '\n'), .comment⟩, after.dropWhile (· ≠ '\n'))
  | rest => (⟨['/'], .token (.symbol .slash)⟩, rest)

/-- The first piece of the source `c :: rest`, and the source after it. -/
def first (c : Char) (rest : List Char) : Piece × List Char :=
  if c = quote then string rest
  else if c.isDigit then number c rest
  else if startsWord c then word c rest
  else if isBlank c then (⟨[c], .blank⟩, rest)
  else if c = '/' then slash rest
  else match Symbol.ofChar? c with
    | some s => operator s c rest
    | none => (⟨[c], .unexpected⟩, rest)

/-- A piece and what follows it are the source, and no piece is empty. -/
theorem first_append (c : Char) (rest : List Char) :
    ∃ more, (first c rest).1.text = c :: more ∧ more ++ (first c rest).2 = rest := by
  unfold first
  split
  · rename_i hc
    subst hc
    unfold string
    split
    · exact ⟨rest, rfl, by simp⟩
    · rename_i d after h
      have hd : d = quote := by
        have := List.head?_dropWhile_not (· ≠ quote) rest
        rw [h] at this
        simpa using this
      refine ⟨_, rfl, ?_⟩
      have := List.takeWhile_append_dropWhile (p := (· ≠ quote)) (l := rest)
      rw [h, hd] at this
      simpa using this
  split
  · unfold number
    have cut := List.takeWhile_append_dropWhile (p := Char.isDigit) (l := rest)
    split
    · rename_i after h
      have part := List.takeWhile_append_dropWhile (p := Char.isDigit) (l := after)
      split
      · exact ⟨_, rfl, by rw [h] at cut; exact cut⟩
      · refine ⟨rest.takeWhile Char.isDigit ++ '.' :: after.takeWhile Char.isDigit, rfl, ?_⟩
        rw [List.append_assoc, List.cons_append, part]
        rw [h] at cut
        exact cut
    · exact ⟨_, rfl, cut⟩
  split
  · exact ⟨_, rfl, List.takeWhile_append_dropWhile⟩
  split
  · exact ⟨[], rfl, rfl⟩
  split
  · rename_i hc
    subst hc
    unfold slash
    split
    · exact ⟨_, rfl, by simp [List.takeWhile_append_dropWhile]⟩
    · exact ⟨[], rfl, rfl⟩
  · split
    · unfold operator
      split
      · exact ⟨['='], rfl, rfl⟩
      · exact ⟨[], rfl, rfl⟩
    · exact ⟨[], rfl, rfl⟩

theorem first_length (c : Char) (rest : List Char) :
    (first c rest).2.length < (c :: rest).length := by
  obtain ⟨more, _, h⟩ := first_append c rest
  have := congrArg List.length h
  simp at this ⊢
  omega

/-- The pieces of a source, in order. -/
def cut : List Char → List Piece
  | [] => []
  | c :: rest => (first c rest).1 :: cut (first c rest).2
termination_by source => source.length
decreasing_by exact first_length c rest

/-- Put together, the pieces are the source. -/
theorem cut_text (source : List Char) : (cut source).flatMap Piece.text = source := by
  fun_induction cut source with
  | case1 => rfl
  | case2 c rest ih =>
    obtain ⟨more, h, hr⟩ := first_append c rest
    simp only [List.flatMap_cons, ih, h, List.cons_append, hr]

/-- The line on which a piece that starts on `line` ends. -/
def endLine (line : Nat) (p : Piece) : Nat := line + p.text.count '\n'

end Piece

/-- Why a piece is no token. -/
inductive Fault where
  | unexpectedCharacter
  | unterminatedString
deriving DecidableEq, Repr

namespace Fault

def message : Fault → String
  | unexpectedCharacter => "Unexpected character."
  | unterminatedString => "Unterminated string."

def diagnostic (fault : Fault) (line : Nat) : Diagnostic :=
  .static line "" fault.message

end Fault

/-- The tokens of a source, the last and only the last the end of input, and
its faults with their lines. -/
structure Scan where
  tokens : List Token
  faults : List (Fault × Nat)

namespace Scan

/-- Reads off the pieces that start on `line`. -/
def ofPieces (line : Nat) : List Piece → Scan
  | [] => ⟨[⟨.endOfInput, "", line⟩], []⟩
  | p :: pieces =>
    let line := p.endLine line
    let later := ofPieces line pieces
    match p.role with
    | .token kind => { later with tokens := ⟨kind, String.ofList p.text, line⟩ :: later.tokens }
    | .blank | .comment => later
    | .unexpected => { later with faults := (.unexpectedCharacter, line) :: later.faults }
    | .unterminated => { later with faults := (.unterminatedString, line) :: later.faults }

def diagnostics (s : Scan) : List Diagnostic :=
  s.faults.map fun (fault, line) => fault.diagnostic line

end Scan

/-- Scans a source; its first line is 1. -/
def scan (source : String) : Scan :=
  .ofPieces 1 (Piece.cut source.toList)

end Lox
