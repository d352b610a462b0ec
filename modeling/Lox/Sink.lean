/-
# Sinks

What a program writes goes to a sink, of any kind that bytes can be written
to and that can be flushed; both may be refused, for a reason. The sink that
is used if nothing else is said may have room for only so many bytes: then it
keeps what fits and refuses the rest. Writing nothing is never refused, and
to flush it changes nothing.

Key definitions: `Output`, `Output.writeLine`, `Sink`, `Sink.write`.
Key theorems: `Sink.write_eq`, `Sink.write_refused_iff`.
-/
namespace Lox

/-- What a program can write to. -/
class Output (W : Type) where
  /-- All that was taken so far. -/
  accepted : W → ByteArray
  /-- Takes bytes, or gives the reason if that is not all of them. -/
  write : W → ByteArray → Option String × W
  /-- Flushes what was taken; gives the reason if that fails. -/
  flush : W → Option String × W

/-- Writes a line with its newline. -/
def Output.writeLine {W : Type} [Output W] (sink : W) (line : String) : Option String × W :=
  write sink (line ++ "\n").toUTF8

structure Sink where
  accepted : ByteArray := .empty
  /-- How many bytes it takes in all; without a limit, as many as come. -/
  limit : Option Nat := none
  /-- What it says to bytes beyond its limit. -/
  refusal : String := ""
  /-- What it says when asked to flush, if that fails. -/
  flushRefusal : Option String := none

namespace Sink

/-- How many of the `n` bytes offered the sink takes. -/
def room (sink : Sink) (n : Nat) : Nat :=
  match sink.limit with
  | none => n
  | some limit => min n (limit - sink.accepted.size)

/-- Takes what fits of `bytes`; gives the reason if that is not all. -/
def write (sink : Sink) (bytes : ByteArray) : Option String × Sink :=
  if sink.room bytes.size = bytes.size then
    (none, { sink with accepted := sink.accepted ++ bytes })
  else
    (some sink.refusal,
      { sink with accepted := sink.accepted ++ bytes.extract 0 (sink.room bytes.size) })

instance : Output Sink where
  accepted := accepted
  write := write
  flush sink := (sink.flushRefusal, sink)

/-- What a sink has after a write: what it had, and what it had room for. -/
theorem write_eq (sink : Sink) (bytes : ByteArray) : (sink.write bytes).2 =
    { sink with accepted := sink.accepted ++ bytes.extract 0 (sink.room bytes.size) } := by
  unfold write
  split
  · rename_i h
    rw [h, ByteArray.extract_zero_size]
  · rfl

/-- A write is refused exactly when there is room for only part of it. -/
theorem write_refused_iff (sink : Sink) (bytes : ByteArray) :
    (sink.write bytes).1 = some sink.refusal ↔ sink.room bytes.size ≠ bytes.size := by
  unfold write
  split <;> simp_all

end Sink
end Lox
