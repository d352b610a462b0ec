/-
# The history of a session

What is done with a session is a sequence of steps: sources are run, the
pending diagnostics are taken, the record is reset. What comes of it is the
history of the session. A run is in it with its outcome and with what its
program failed of, and taking the diagnostics with those that were taken.
The steps determine the history, and where it leads.

Key definitions: `Step`, `Event`, `Session.Takes`, `Session.Leads`.
Key theorems: `Session.Takes.of_run`, `Session.Leads.lockstep`, `Session.Leads.unique`.
-/
import Lox.Proofs.Rounds

namespace Lox

/-- What can be done with a session. -/
inductive Step where
  | run (source : String)
  | drain
  | reset
deriving DecidableEq, Repr

/-- What came of a step. -/
inductive Event where
  /-- `failure` is what the program failed of, if it was executed and did. -/
  | run (source : String) (outcome : Outcome) (failure : Option Failure)
  | drain (taken : List Diagnostic)
  | reset
deriving DecidableEq, Repr

def Event.step : Event → Step
  | run source _ _ => .run source
  | drain _ => .drain
  | reset => .reset

/-- The failure a program ended of. -/
def failureOf : EStateM.Result Stop State Unit → Option Failure
  | .error (.failure f) _ => some f
  | _ => none

theorem failureOf_ending (failure : Option Failure) (st : State) :
    failureOf (ending failure st) = failure := by
  cases failure <;> rfl

namespace Session

/-- A session nothing was done with. -/
def new (options : Options) (sink : Sink) : Session := ⟨options, ⟨{}, sink⟩, {}⟩

/-- What the program of a run failed of; after a static error it is not executed. -/
def failure? (rounds : Nat) (source : String) (session : Session) : Outcome → Option Failure
  | .staticError => none
  | _ => failureOf (interpret rounds (program source) (session.listed source))

/-- A step, what comes of it and where it leads. A run has to end, within some number of rounds. -/
inductive Takes : Session → Event → Session → Prop
  | run {rounds : Nat} {source : String} {outcome : Outcome} {session next : Session}
      (h : Session.run rounds source session = .ok outcome next) :
      Takes session (.run source outcome (session.failure? rounds source outcome)) next
  | drain (session : Session) : Takes session (.drain session.drain.1) session.drain.2
  | reset (session : Session) : Takes session .reset session.reset

/-- The history that leads from one session to another, oldest event first. -/
inductive Leads (first : Session) : List Event → Session → Prop
  | start : Leads first [] first
  | step {events : List Event} {event : Event} {mid last : Session} (h : Leads first events mid)
      (ht : Takes mid event last) : Leads first (events ++ [event]) last

section Takes

variable {session next other : Session} {source : String} {outcome : Outcome}
  {failure : Option Failure} {event event' : Event}

/-- A run in a history stopped at a static error on record, or its program ended. -/
theorem Takes.of_run (h : Takes session (.run source outcome failure) next) :
    ((session.checked source).hadError = true ∧ outcome = .staticError ∧ failure = none ∧
      next = ⟨session.options, session.listed source, session.checked source⟩) ∨
    ((session.checked source).hadError = false ∧
      (∃ rounds, interpret rounds (program source) (session.listed source) =
        ending failure next.state) ∧
      outcome = (if next.diagnostics.hadRuntimeError then .runtimeError else .success) ∧
      next = ⟨session.options, next.state, session.settled source failure⟩) := by
  cases h with
  | @run rounds _ _ _ _ hr =>
    rcases ends_of_run hr with ⟨hc, rfl, rfl⟩ | ⟨hc, failure, hi, ho, hn⟩
    · exact .inl ⟨hc, rfl, rfl, rfl⟩
    · have hf : session.failure? rounds source outcome = failure := by
        rw [ho]
        split <;> simp only [failure?, hi, failureOf_ending]
      rw [hf]
      exact .inr ⟨hc, ⟨rounds, hi⟩, ho, hn⟩

theorem failure?_more {rounds more : Nat} (hle : rounds ≤ more)
    (h : run rounds source session = .ok outcome next) :
    session.failure? more source outcome = session.failure? rounds source outcome := by
  by_cases hc : (session.checked source).hadError = true
  · rw [run_of_static hc] at h
    cases h
    rfl
  · have hi := interpret_of_run_ok hle (eq_false_of_ne_true hc) h
    cases outcome <;> simp only [failure?, hi]

/-- What comes of a step is determined by the step. -/
theorem Takes.unique (h : Takes session event next) (h' : Takes session event' other)
    (hs : event.step = event'.step) : event = event' ∧ next = other := by
  cases h with
  | @run rounds source outcome _ _ hr =>
    cases h' with
    | @run rounds' source' outcome' _ _ hr' =>
      obtain rfl : source = source' := Step.run.inj hs
      obtain ⟨rfl, rfl⟩ := run_unique hr hr'
      have hl := failure?_more (Nat.le_max_left rounds rounds') hr
      have hm := failure?_more (Nat.le_max_right rounds rounds') hr'
      rw [← hl, ← hm]
      exact ⟨rfl, rfl⟩
    | drain => cases hs
    | reset => cases hs
  | drain =>
    cases h' with
    | run _ => cases hs
    | drain => exact ⟨rfl, rfl⟩
    | reset => cases hs
  | reset =>
    cases h' with
    | run _ => cases hs
    | drain => cases hs
    | reset => exact ⟨rfl, rfl⟩

theorem Takes.options_eq (h : Takes session event next) : next.options = session.options := by
  cases h with
  | run h =>
    rcases ends_of_run h with ⟨-, -, rfl⟩ | ⟨-, _, -, -, hn⟩
    · rfl
    · rw [hn]
  | drain => rfl
  | reset => rfl

end Takes

section Leads

variable {first first' last last' : Session} {events events' : List Event}

theorem Leads.options_eq (h : Leads first events last) : last.options = first.options := by
  induction h with
  | start => rfl
  | step _ ht ih => rw [ht.options_eq, ih]

/-- Two histories of the same steps: what holds of both at the start and is kept by each step taken
in both holds at the end. -/
theorem Leads.lockstep {R : List Event → Session → List Event → Session → Prop}
    (hstart : R [] first [] first')
    (hstep : ∀ {events events' : List Event} {mid mid' : Session} {event event' : Event}
      {last last' : Session}, R events mid events' mid' → Takes mid event last →
      Takes mid' event' last' → event.step = event'.step →
      R (events ++ [event]) last (events' ++ [event']) last')
    (h : Leads first events last) : ∀ {events' : List Event} {last' : Session},
      Leads first' events' last' → events.map Event.step = events'.map Event.step →
      R events last events' last' := by
  induction h with
  | start =>
    intro events' last' h' hs
    cases h' with
    | start => exact hstart
    | step => simp at hs
  | @step events event mid last _ ht ih =>
    intro events' last' h' hs
    cases h' with
    | start => simp at hs
    | step h' ht' =>
      rw [List.map_append, List.map_append] at hs
      obtain ⟨hs, he⟩ := List.append_inj' hs rfl
      exact hstep (ih h' hs) ht ht' (List.cons.inj he).1

/-- The history, and the session it leads to, are determined by the steps. -/
theorem Leads.unique (h : Leads first events last) (h' : Leads first events' last')
    (hs : events.map Event.step = events'.map Event.step) : events = events' ∧ last = last' := by
  refine h.lockstep (R := fun events last events' last' => events = events' ∧ last = last')
    ⟨rfl, rfl⟩ ?_ h' hs
  intro events events' mid mid' event event' last last' hR ht ht' hs
  obtain ⟨rfl, rfl⟩ := hR
  obtain ⟨rfl, rfl⟩ := ht.unique ht' hs
  exact ⟨rfl, rfl⟩

end Leads

end Session
end Lox
