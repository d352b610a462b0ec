/-
# The command line

Runs the script named on the command line, or a dialogue at the prompt when
there is none.
-/
import Lox.Invocation
import Lox.Transcript

namespace Lox

/-- More rounds than any loop can go in practice. -/
def manyRounds : Nat := Nat.pow 2 62

def readScript (name : String) : IO (Except Script.Unreadable ByteArray) := do
  try
    return .ok (← IO.FS.readBinFile name)
  catch
    | .noFileOrDirectory .. => return .error .notFound
    | .inappropriateType .. => return .error .isDirectory
    | e => return .error (.other (toString e))

def runScript (options : Options) (name : String) : IO UInt32 := do
  match Script.transcript manyRounds options name (← readScript name) with
  | .error _ => return 70
  | .ok transcript =>
    (← IO.getStdout).write transcript.output
    (← IO.getStderr).write transcript.errors
    return transcript.exitCode.toUInt32

/-- The bytes of the next line after those of `line`, its newline included. -/
partial def readLine (input : IO.FS.Stream) (line : ByteArray) : IO ByteArray := do
  let next ← input.read 1
  if next.isEmpty || next.data = #[10] then return line ++ next
  readLine input (line ++ next)

/-- Writes to standard output and flushes; says whether that was possible. -/
def shown (bytes : ByteArray) : IO Bool := do
  try
    let output ← IO.getStdout
    output.write bytes
    output.flush
    return true
  catch _ => return false

/-- A dialogue at the prompt. What a line writes is shown, and the sink emptied, before the next is
read; `Prompt.dialogue_turn` says that a dialogue comes to the same if it is not. -/
partial def runPrompt (session : Session) : IO UInt32 := do
  unless ← shown Prompt.mark.toUTF8 do return 0
  let line ← readLine (← IO.getStdin) .empty
  if line.isEmpty then return 0
  match Prompt.answer manyRounds line.data.toList session with
  | .error .. => return 70
  | .ok none _ => return 0
  | .ok (some diagnostics) session =>
    let _ ← shown session.state.sink.accepted
    (← IO.getStderr).write (messageLines diagnostics)
    runPrompt { session with state := { session.state with sink := {} } }

end Lox

def main (args : List String) : IO UInt32 :=
  match Lox.Arguments.ofWords args with
  | .shown text => do
    IO.println text
    return 0
  | .refused message => do
    IO.eprintln message
    return Lox.Invocation.refusedExitCode.toUInt32
  | .accepted ⟨options, some script⟩ => Lox.runScript options script
  | .accepted ⟨options, none⟩ => Lox.runPrompt { options }
