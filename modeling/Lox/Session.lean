/-
# Sessions

A session runs one source after another on the same variables and the same
sink, and keeps a record of what went wrong. A source with an error in its
text is not executed. Under the sticky policy an error counts until the
record is reset, so after a static error nothing more is executed; otherwise
every run starts with a clean record. On request a run first lists its tokens
and the outline of its program; a listing that cannot be written is no error.

Key definitions: `Options`, `Session`, `Outcome`, `Session.run`.
-/
import Lox.Execution
import Lox.Grammar.Program
import Lox.Outline
import Lox.Piece

namespace Lox

structure Options where
  listTokens : Bool := false
  listOutline : Bool := false
  /-- Errors of earlier runs count until the record is reset. -/
  sticky : Bool := false
deriving DecidableEq, Repr

structure Session (W : Type := Sink) where
  options : Options := {}
  state : State W := by exact {}
  diagnostics : Diagnostics := {}

/-- What a run that ended came to. -/
inductive Outcome where
  | success
  | staticError
  | runtimeError
deriving DecidableEq, Repr

def Outcome.exitCode : Outcome → Nat
  | success => 0
  | staticError => 65
  | runtimeError => 70

/-- Why a run did not end. -/
inductive Interruption where
  | malformed (m : Malformed)
  | outOfRounds
deriving DecidableEq, Repr

namespace Session

variable {W : Type}

/-- Writes the lines one by one, each even if one before was refused. -/
def list [Output W] (lines : List String) (sink : W) : W :=
  lines.foldl (fun sink line => (Output.writeLine sink line).2) sink

/-- The lines a run lists before it executes anything. -/
def listing (options : Options) (tokens : List Token) (program : Declarations) : List String :=
  (if options.listTokens then tokens.map Token.text else []) ++
    (if options.listOutline then [outline program] else [])

/-- The record a run starts with. -/
def opening (options : Options) (diagnostics : Diagnostics) : Diagnostics :=
  if options.sticky then diagnostics else diagnostics.reset

/-- Runs a source, each loop for at most `rounds` rounds. -/
def run [Output W] (rounds : Nat) (source : String) : EStateM Interruption (Session W) Outcome :=
  fun ⟨options, ⟨environment, sink⟩, diagnostics⟩ =>
    let scan := scan source
    let parse := parse scan.tokens
    let sink := list (listing options scan.tokens parse.declarations) sink
    let diagnostics := (opening options diagnostics).recordAll (scan.diagnostics ++ parse.diagnostics)
    if diagnostics.hadError then .ok .staticError ⟨options, ⟨environment, sink⟩, diagnostics⟩
    else
      match interpret rounds parse.declarations ⟨environment, sink⟩ with
      | .ok () state =>
        .ok (if diagnostics.hadRuntimeError then .runtimeError else .success)
          ⟨options, state, diagnostics⟩
      | .error (.failure f) state =>
        .ok .runtimeError ⟨options, state, diagnostics.record f.diagnostic⟩
      | .error (.malformed m) state => .error (.malformed m) ⟨options, state, diagnostics⟩
      | .error .outOfRounds state => .error .outOfRounds ⟨options, state, diagnostics⟩

/-- Takes the pending diagnostics. -/
def drain (session : Session W) : List Diagnostic × Session W :=
  (session.diagnostics.drain.1, { session with diagnostics := session.diagnostics.drain.2 })

def reset (session : Session W) : Session W :=
  { session with diagnostics := session.diagnostics.reset }

end Session
end Lox
