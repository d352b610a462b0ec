/-
# Invocations

What the command line asks for, and what becomes of it. Reading the arguments
is left to a parser that is not part of the program: it accepts them, refuses
them, or shows a text of its own, such as the help, and all that is done here
starts from that. `Arguments.ofWords` stands for it in the executable; there
are flags, each given at most once, and at most one script. An argument is a
flag if it begins with two dashes; more dashes and a value after `=` change
nothing. A lone dash and the empty word can be scripts, other words that begin
with a dash are refused, and after `--` no argument is a flag. It has no help.

Key definitions: `Invocation`, `Arguments`, `Arguments.transcript`, `Arguments.ofWords`.
Key theorems: `Arguments.ofWords_words`.
-/
import Lox.Transcript

namespace Lox

/-- What the command line asks for; without a script, the prompt. -/
structure Invocation where
  options : Options
  script : Option String
deriving DecidableEq, Repr

/-- What the parser of the arguments comes to. -/
inductive Arguments where
  | accepted (invocation : Invocation)
  | refused (message : String)
  /-- Only a text is asked for. -/
  | shown (text : String)
deriving DecidableEq, Repr

/-- The exit code when the arguments are refused. -/
def Invocation.refusedExitCode : Nat := 64

/-- What the program does, given the files and the standard input. -/
def Arguments.transcript (rounds : Nat) (file : String → Except Script.Unreadable ByteArray)
    (input : ByteArray) (log : Log := .off) : Arguments → Except Interruption Transcript
  | accepted ⟨options, some name⟩ => Script.transcript rounds options name (file name) log
  | accepted ⟨options, none⟩ => Prompt.transcript rounds options input log
  | refused message => .ok ⟨.empty, (message ++ "\n").toUTF8, Invocation.refusedExitCode⟩
  | shown text => .ok ⟨(text ++ "\n").toUTF8, .empty, 0⟩

/-! ### Reading the arguments -/

inductive Flag where
  | tokens
  | ast
  | stickyErrors
deriving DecidableEq, Repr

def Flag.name : Flag → String
  | tokens => "tokens"
  | ast => "ast"
  | stickyErrors => "sticky-errors"

def Flag.all : List Flag := [tokens, ast, stickyErrors]

def Options.ofFlags (flags : List Flag) : Options where
  listTokens := flags.contains .tokens
  listOutline := flags.contains .ast
  sticky := flags.contains .stickyErrors

def Options.has (options : Options) : Flag → Bool
  | .tokens => options.listTokens
  | .ast => options.listOutline
  | .stickyErrors => options.sticky

/-- What an argument before `--` can be. -/
inductive Argument where
  | flag (name : String)
  | operandsFollow
  | operand
  | refused
deriving DecidableEq, Repr

def Argument.ofWord (word : String) : Argument :=
  match word.toList with
  | ['-', '-'] => operandsFollow
  | '-' :: '-' :: rest =>
    flag (String.ofList ((rest.dropWhile (· = '-')).takeWhile (· ≠ '=')))
  | '-' :: _ :: _ => refused
  | _ => operand

namespace Invocation

/-- Arguments that cannot be flags. -/
def operands (flags : List Flag) : (script : Option String) → List String → Option Invocation
  | script, [] => some ⟨.ofFlags flags, script⟩
  | none, word :: rest => operands flags (some word) rest
  | some _, _ :: _ => none

/-- Reads the arguments after the given flags and script. -/
def arguments (flags : List Flag) (script : Option String) : List String → Option Invocation
  | [] => some ⟨.ofFlags flags, script⟩
  | word :: rest =>
    match Argument.ofWord word with
    | .refused => none
    | .operandsFollow => operands flags script rest
    | .operand =>
      match script with
      | none => arguments flags (some word) rest
      | some _ => none
    | .flag name =>
      match Flag.all.find? (·.name = name) with
      | none => none
      | some flag => if flag ∈ flags then none else arguments (flag :: flags) script rest

/-- What the arguments ask for, unless they are refused. -/
def ofArgs? (args : List String) : Option Invocation :=
  arguments [] none args

/-- Arguments that ask for it. -/
def words (invocation : Invocation) : List String :=
  (Flag.all.filter invocation.options.has).map ("--" ++ ·.name) ++
    match invocation.script with
    | none => []
    | some name => ["--", name]

/-- Every combination of the flags can be asked for, with every script or none. -/
theorem ofArgs?_words (invocation : Invocation) : ofArgs? invocation.words = some invocation := by
  obtain ⟨⟨listTokens, listOutline, sticky⟩, script⟩ := invocation
  cases listTokens <;> cases listOutline <;> cases sticky <;> cases script <;> rfl

end Invocation

/-- The reading of the arguments. -/
def Arguments.ofWords (args : List String) : Arguments :=
  match Invocation.ofArgs? args with
  | some invocation => accepted invocation
  | none => refused "usage: lox [--tokens] [--ast] [--sticky-errors] [script]"

theorem Arguments.ofWords_words (invocation : Invocation) :
    ofWords invocation.words = accepted invocation := by
  rw [ofWords, Invocation.ofArgs?_words]

end Lox
