/-
# Executing statements

Statements run on an environment and a sink, of whatever kind. A block has a
scope of its own, which is closed however the block ends. A loop goes round at
most `rounds` times, each time it is entered, and stops the program if that is
not enough; so whatever a program comes to with some number of rounds other
than `outOfRounds`, it comes to with any larger one.

Key definitions: `State`, `inScope`, `repeatWhile`, `execute`, `interpret`.
-/
import Lox.Evaluation
import Lox.Sink

namespace Lox

/-- What a running program changes: its variables and what it has written. -/
structure State (W : Type := Sink) where
  environment : Environment := {}
  sink : W := by exact {}

section Steps

variable {W : Type}

/-- Runs an action on the variables alone. -/
def onVariables {α : Type} (action : Action Environment α) : Action (State W) α :=
  fun ⟨environment, sink⟩ =>
    match action environment with
    | .ok a environment => .ok a ⟨environment, sink⟩
    | .error stop environment => .error stop ⟨environment, sink⟩

/-- Runs `body` in a scope of its own. -/
def inScope (body : Action (State W) Unit) : Action (State W) Unit := fun ⟨environment, sink⟩ =>
  match body ⟨environment.enter, sink⟩ with
  | .ok () ⟨environment, sink⟩ => .ok () ⟨environment.leave, sink⟩
  | .error stop ⟨environment, sink⟩ => .error stop ⟨environment.leave, sink⟩

/-- Writes a line; what a sink takes of a line it refuses stays written. -/
def writeLine [Output W] (line : String) : Action (State W) Unit := fun ⟨environment, sink⟩ =>
  match Output.writeLine sink line with
  | (none, sink) => .ok () ⟨environment, sink⟩
  | (some reason, sink) => .error (.failure (.output reason)) ⟨environment, sink⟩

def flush [Output W] : Action (State W) Unit := fun ⟨environment, sink⟩ =>
  match Output.flush sink with
  | (none, sink) => .ok () ⟨environment, sink⟩
  | (some reason, sink) => .error (.failure (.output reason)) ⟨environment, sink⟩

def define (name : String) (v : Value) : Action (State W) Unit :=
  modify fun ⟨environment, sink⟩ => ⟨environment.define name v, sink⟩

/-- Repeats `body` as long as `test` holds, for at most `rounds` rounds. -/
def repeatWhile (test : Action (State W) Bool) (body : Action (State W) Unit) :
    (rounds : Nat) → Action (State W) Unit
  | 0 => throw .outOfRounds
  | rounds + 1 => do
    if ← test then
      body
      repeatWhile test body rounds

/-- Whether a condition holds. -/
def holds (condition : Expression) : Action (State W) Bool :=
  onVariables do return (← evaluate condition).isTruthy

end Steps

section Programs

variable {W : Type} [Output W]

mutual

def execute (rounds : Nat) : Statement → Action (State W) Unit
  | .print value => do
    let v ← onVariables (evaluate value)
    writeLine v.text
  | .evaluate e => do
    let _ ← onVariables (evaluate e)
  | .declare name none => define name.lexeme .nil
  | .declare name (some e) => do
    let v ← onVariables (evaluate e)
    define name.lexeme v
  | .block body => inScope (executeAll rounds body)
  | .branch condition yes none => do
    if ← holds condition then execute rounds yes
  | .branch condition yes (some no) => do
    if ← holds condition then execute rounds yes else execute rounds no
  | .loop condition body => repeatWhile (holds condition) (execute rounds body) rounds

/-- Runs declarations in order, without those that could not be read. -/
def executeAll (rounds : Nat) : Declarations → Action (State W) Unit
  | [] => pure ()
  | none :: rest => executeAll rounds rest
  | some s :: rest => do
    execute rounds s
    executeAll rounds rest

end

/-- Runs a program and flushes what it wrote; one that stops early is not flushed. -/
def interpret (rounds : Nat) (program : Declarations) : Action (State W) Unit := do
  executeAll rounds program
  flush

end Programs

end Lox
