/-
# Sources that print

A source that is one print writes the text of a value. If its expression has a
value and changes nothing, a run of it succeeds and leaves everything as it
was, but for that text in the sink.

Key theorems: `Piece.cut_print`, `Session.run_print`.
-/
import Lox.Proofs.Lines.Splitting
import Lox.Proofs.Output
import Lox.Proofs.Pieces.Layout

namespace Lox

/-- The pieces of `print`, a blank and what follows. -/
theorem Piece.cut_print (more : List Char) :
    cut ("print ".toList ++ more) =
      ⟨"print".toList, .token (.symbol .printWord)⟩ :: ⟨[' '], .blank⟩ :: cut more := by
  have hkeyword : Lexeme "print".toList (.symbol .printWord) := .keyword (by decide)
  have hblank : cut (' ' :: more) = ⟨[' '], .blank⟩ :: cut more := cut_blank rfl more
  rw [← hblank]
  exact cut_lexeme hkeyword rfl more

namespace Session

variable {rounds : Nat} {source : String} {session : Session}

/-- A run of a source that is one print, of an expression that has a value and changes nothing. -/
theorem run_print {e : Expression} {v : Value} (ho : session.options = {})
    (hn : session.state.sink.limit = none) (hf : session.state.sink.flushRefusal = none)
    (h : Correct source) (hp : program source = [some (.print e)])
    (hv : evaluate e session.state.environment = .ok v session.state.environment) :
    run rounds source session = .ok .success
      ⟨{}, session.state.holding (session.state.sink.accepted ++ (v.text ++ "\n").toUTF8), {}⟩ := by
  have hvalue : onVariables (evaluate e) session.state = .ok v session.state :=
    onVariables_of_ok hv
  have hwrite := writeLine_of_limit_none hn v.text
  generalize hprinted : session.state.holding
    (session.state.sink.accepted ++ (v.text ++ "\n").toUTF8) = printed at hwrite ⊢
  have hprint : execute rounds (.print e) session.state = .ok () printed := by
    rw [execute]
    exact (Action.bind_of_ok _ hvalue).trans hwrite
  have hall : executeAll rounds (program source) session.state = .ok () printed := by
    rw [hp, executeAll, executeAll]
    exact Action.bind_of_ok _ hprint
  have hflush : flush printed = .ok () printed := by
    have hprintedFlush : printed.sink.flushRefusal = none := by
      rw [← hprinted]
      exact hf
    rw [flush_sink, hprintedFlush]
  have hinterpret := (Action.bind_of_ok (fun _ => flush) hall).trans hflush
  rw [run_of_correct ho h]
  exact congrArg ofResult hinterpret

end Session
end Lox
