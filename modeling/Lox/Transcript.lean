/-
# Transcripts

What a script or a dialogue at the prompt writes to standard output and to
standard error, and how it exits. A script is one run. At the prompt each
line of the input is a run of its own in one session: a mark is written
before a line is read, and the messages of a run are taken after it. The
dialogue ends without an error at the end of the input, at the first line
that is no text, or when the mark cannot be flushed.

A script or a line that cannot be read is also logged. What the logger makes
of that is not known here; it goes to standard error like the messages. What
is logged for debugging only is left out.

Key definitions: `Transcript`, `Log`, `Script.transcript`, `Prompt.answer`, `Prompt.transcript`.
-/
import Lox.Session

namespace Lox

structure Transcript where
  output : ByteArray
  errors : ByteArray
  exitCode : Nat

/-- What the logger writes of an error. -/
abbrev Log := String → ByteArray

/-- The logger when it is switched off. -/
def Log.off : Log := fun _ => .empty

/-- Each message on a line of its own. -/
def messageLines (diagnostics : List Diagnostic) : ByteArray :=
  diagnostics.foldl (fun bytes d => bytes ++ (d.message ++ "\n").toUTF8) .empty

/-- Runs a source and takes its messages. -/
def respond (rounds : Nat) (source : String) : EStateM Interruption Session (Outcome × List Diagnostic) := do
  let outcome ← Session.run rounds source
  let diagnostics ← modifyGet Session.drain
  return (outcome, diagnostics)

namespace Script

/-- Why a script cannot be read. -/
inductive Unreadable where
  | notFound
  | isDirectory
  | notText
  | other (reason : String)
deriving DecidableEq, Repr

def Unreadable.reason : Unreadable → String
  | notFound => "No such file or directory (os error 2)"
  | isDirectory => "Is a directory (os error 21)"
  | notText => "stream did not contain valid UTF-8"
  | other reason => reason

def Unreadable.message (name : String) (u : Unreadable) : String :=
  "Could not read '" ++ name ++ "': " ++ u.reason

/-- What is logged of it. -/
def Unreadable.logged (name : String) (u : Unreadable) : String :=
  "could not read " ++ name ++ ": " ++ u.reason

def unreadableExitCode : Nat := 66

/-- The text of a script from its bytes. -/
def text (content : Except Unreadable ByteArray) : Except Unreadable String :=
  match content with
  | .error u => .error u
  | .ok bytes =>
    match String.fromUTF8? bytes with
    | some source => .ok source
    | none => .error .notText

def transcript (rounds : Nat) (options : Options) (name : String)
    (content : Except Unreadable ByteArray) (log : Log := .off) : Except Interruption Transcript :=
  match text content with
  | .error u =>
    .ok ⟨.empty, log (u.logged name) ++ (u.message name ++ "\n").toUTF8, unreadableExitCode⟩
  | .ok source =>
    match respond rounds source { options } with
    | .ok (outcome, diagnostics) session =>
      .ok ⟨session.state.sink.accepted, messageLines diagnostics, outcome.exitCode⟩
    | .error interruption _ => .error interruption

end Script

namespace Prompt

/-- What is written before a line is read. -/
def mark : String := "> "

/-- The lines of an input, each with the newline that ends it. -/
def lines : List UInt8 → List (List UInt8)
  | [] => []
  | b :: rest =>
    if b = 10 then [b] :: lines rest
    else match lines rest with
      | [] => [[b]]
      | line :: more => (b :: line) :: more

/-- The text of a line, if it is text. -/
def text? (line : List UInt8) : Option String :=
  String.fromUTF8? ⟨line.toArray⟩

/-- Writes the mark and flushes; says whether a line can be read then. -/
def ask : EStateM Interruption Session Bool := fun ⟨options, ⟨environment, sink⟩, diagnostics⟩ =>
  let (refusal, sink) := Output.flush (sink.write mark.toUTF8).2
  .ok refusal.isNone ⟨options, ⟨environment, sink⟩, diagnostics⟩

/-- Runs a line and takes the messages; there is no answer to a line that is no text. -/
def answer (rounds : Nat) (line : List UInt8) : EStateM Interruption Session (Option (List Diagnostic)) := do
  match text? line with
  | none => return none
  | some source =>
    let (_, diagnostics) ← respond rounds source
    return some diagnostics

/-- What is logged of a line that is no text. -/
def unreadLine : String := "failed to read line: " ++ Script.Unreadable.notText.reason

/-- What a dialogue has to say beside its output. -/
structure Report where
  diagnostics : List Diagnostic := []
  /-- What is logged at its end, if anything is. -/
  logged : Option String := none

/-- The messages come first. -/
def Report.after (diagnostics : List Diagnostic) (report : Report) : Report :=
  { report with diagnostics := diagnostics ++ report.diagnostics }

/-- What is written to standard error: the messages, and then what is logged. -/
def Report.errors (log : Log) (report : Report) : ByteArray :=
  match report.logged with
  | none => messageLines report.diagnostics
  | some text => messageLines report.diagnostics ++ log text

/-- The dialogue over the given lines. -/
def dialogue (rounds : Nat) : List (List UInt8) → EStateM Interruption Session Report
  | [] => do
    let _ ← ask
    return {}
  | line :: rest => do
    if ← ask then
      match ← answer rounds line with
      | none => return { logged := some unreadLine }
      | some diagnostics => return (← dialogue rounds rest).after diagnostics
    else return {}

def transcript (rounds : Nat) (options : Options) (input : ByteArray) (log : Log := .off) :
    Except Interruption Transcript :=
  match dialogue rounds (lines input.data.toList) { options } with
  | .ok report session => .ok ⟨session.state.sink.accepted, report.errors log, 0⟩
  | .error interruption _ => .error interruption

end Prompt
end Lox
