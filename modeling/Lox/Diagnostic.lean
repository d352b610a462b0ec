/-
# Diagnostics

A diagnostic is one message to the user with what is known about it: an error
found before the program runs stands on a line and at a place in it, an error
while it runs on a line, and output that could not be written nowhere. The
record of a session holds the messages not yet taken and remembers, until it
is reset, whether there was an error of either class.

Key definitions: `Diagnostic`, `Diagnostic.message`, `Diagnostics`.
Key theorems: `Diagnostics.pending_recordAll`, `Diagnostics.hadError_recordAll`,
`Diagnostics.hadRuntimeError_recordAll`.
-/
namespace Lox

inductive Diagnostic where
  /-- An error in the text of the program; `place` is empty or says where in the line it is. -/
  | static (line : Nat) (place : String) (problem : String)
  | evaluation (line : Nat) (problem : String)
  | output (reason : String)
deriving DecidableEq, Repr

namespace Diagnostic

def message : Diagnostic → String
  | static line place problem => "[line " ++ toString line ++ "] Error" ++ place ++ ": " ++ problem
  | evaluation line problem => "[line " ++ toString line ++ "] " ++ problem
  | output reason => "Failed to write output: " ++ reason

def isStatic : Diagnostic → Bool
  | static .. => true
  | _ => false

end Diagnostic

/-- The messages not yet taken, oldest first, and the two flags. -/
structure Diagnostics where
  pending : List Diagnostic := []
  hadError : Bool := false
  hadRuntimeError : Bool := false
deriving DecidableEq, Repr

namespace Diagnostics

/-- Adds a diagnostic and sets the flag of its class. -/
def record (ds : Diagnostics) (d : Diagnostic) : Diagnostics :=
  { pending := ds.pending ++ [d]
    hadError := ds.hadError || d.isStatic
    hadRuntimeError := ds.hadRuntimeError || !d.isStatic }

def recordAll (ds : Diagnostics) (new : List Diagnostic) : Diagnostics :=
  new.foldl record ds

/-- Takes the pending messages; the flags stay. -/
def drain (ds : Diagnostics) : List Diagnostic × Diagnostics :=
  (ds.pending, { ds with pending := [] })

/-- Forgets messages and flags. -/
def reset (_ : Diagnostics) : Diagnostics := {}

def messages (ds : Diagnostics) : List String :=
  ds.pending.map Diagnostic.message

theorem pending_recordAll (ds : Diagnostics) (new : List Diagnostic) :
    (ds.recordAll new).pending = ds.pending ++ new := by
  induction new generalizing ds with
  | nil => simp [recordAll]
  | cons d new ih => simpa [recordAll, record] using ih (ds.record d)

theorem hadError_recordAll (ds : Diagnostics) (new : List Diagnostic) :
    (ds.recordAll new).hadError = (ds.hadError || new.any Diagnostic.isStatic) := by
  induction new generalizing ds with
  | nil => simp [recordAll]
  | cons d new ih => simpa [recordAll, record, Bool.or_assoc] using ih (ds.record d)

theorem hadRuntimeError_recordAll (ds : Diagnostics) (new : List Diagnostic) :
    (ds.recordAll new).hadRuntimeError = (ds.hadRuntimeError || new.any (!·.isStatic)) := by
  induction new generalizing ds with
  | nil => simp [recordAll]
  | cons d new ih => simpa [recordAll, record, Bool.or_assoc] using ih (ds.record d)

end Diagnostics
end Lox
