/-
# More rounds change nothing

A program that ends within some number of rounds comes to the same with any
larger number. So what a run of a session comes to does not depend on the
rounds it was given, as long as it ends.

Key definitions: `Action.Refines`.
Key theorems: `interpret_more`, `Session.run_more`, `Session.run_unique`.
-/
import Lox.Proofs.Steps

namespace Lox

/-- `more` does what `less` does, unless that runs out of rounds. -/
def Action.Refines {α : Type} (less more : Action State α) : Prop :=
  ∀ st, (∃ last, less st = .error .outOfRounds last) ∨ more st = less st

namespace Action

theorem Refines.refl {α : Type} (action : Action State α) : action.Refines action :=
  fun _ => .inr rfl

theorem Refines.bind {α β : Type} {less more : Action State α} {next later : α → Action State β}
    (h : less.Refines more) (hn : ∀ a, (next a).Refines (later a)) :
    Refines (less >>= next) (more >>= later) := by
  intro st
  rcases h st with ⟨last, ho⟩ | he
  · exact .inl ⟨last, bind_of_error next ho⟩
  · rcases hl : less st with ⟨a, mid⟩ | ⟨stop, mid⟩
    · have hm : more st = .ok a mid := he.trans hl
      rw [bind_of_ok next hl, bind_of_ok later hm]
      exact hn a mid
    · have hm : more st = .error stop mid := he.trans hl
      rw [bind_of_error next hl, bind_of_error later hm]
      exact .inr rfl

theorem Refines.inScope {less more : Action State Unit} (h : less.Refines more) :
    Refines (inScope less) (inScope more) := by
  intro st
  rw [inScope_eq, inScope_eq]
  rcases h ⟨st.environment.enter, st.sink⟩ with ⟨last, ho⟩ | he
  · rw [ho]
    exact .inl ⟨_, rfl⟩
  · rw [he]
    exact .inr rfl

theorem refines_closed : Closed Refines where
  value a := .refl (pure a)
  exhausted _ st := .inl ⟨st, rfl⟩
  andThen h hn := h.bind hn
  evaluating action := .refl (onVariables action)
  defining name v := .refl (define name v)
  writing line := .refl (writeLine line)
  flushing := .refl flush
  enclosing h := h.inScope

end Action

theorem interpret_more {rounds more : Nat} (hle : rounds ≤ more) (program : Declarations) :
    (interpret rounds program).Refines (interpret more program) :=
  Action.refines_closed.interpret hle program

namespace Session

variable {rounds more : Nat} {source : String} {session next other : Session}
  {outcome : Outcome}

/-- What interpreting comes to, as far as it does not run out of rounds. -/
theorem interpret_of_run_ok (hle : rounds ≤ more) (hc : (session.checked source).hadError = false)
    (h : run rounds source session = .ok outcome next) :
    interpret more (program source) (session.listed source) =
      interpret rounds (program source) (session.listed source) := by
  rcases interpret_more hle (program source) (session.listed source) with ⟨last, ho⟩ | he
  · rw [run_eq, if_neg (by rw [hc]; decide), ho] at h
    cases h
  · exact he

/-- A run that ends is the same with more rounds. -/
theorem run_more (hle : rounds ≤ more) (h : run rounds source session = .ok outcome next) :
    run more source session = .ok outcome next := by
  rw [← h]
  by_cases hc : (session.checked source).hadError = true
  · rw [run_of_static hc, run_of_static hc]
  · rw [run_eq, run_eq, interpret_of_run_ok hle (eq_false_of_ne_true hc) h]

/-- A source leads from a session to one outcome and one session only. -/
theorem run_unique {outcome' : Outcome} (h : run rounds source session = .ok outcome next)
    (h' : run more source session = .ok outcome' other) : outcome = outcome' ∧ next = other := by
  have hl := run_more (Nat.le_max_left rounds more) h
  have hr := run_more (Nat.le_max_right rounds more) h'
  rw [hl] at hr
  injection hr with ho hs
  exact ⟨ho, hs⟩

end Session
end Lox
