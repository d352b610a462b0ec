/-
# The record of a session

What a run answers, and which diagnostics are pending after it, is determined
by the errors in the history of the session. Under the sticky policy those
since the last reset count, otherwise those of the run alone. Taking the
diagnostics takes none of the errors back, and loses or repeats none of the
diagnostics.

Key definitions: `Event.added`, `sinceReset`, `Session.Answers`, `Session.Remembers`.
Key theorems: `Session.Takes.record_eq`, `Session.Takes.outcome_eq`, `Session.Leads.remembers`,
`Session.Leads.withPolicy`, `outcomes_follow_history`.
-/
import Mathlib
import Lox.Proofs.Histories

namespace Lox

namespace Event

/-- The diagnostics a run adds to the record: those of the scan, of the parse and of its program. -/
def added : Event → List Diagnostic
  | run source _ failure =>
    (scan source).diagnostics ++ (parse (scan source).tokens).diagnostics ++
      failure.toList.map Failure.diagnostic
  | _ => []

/-- The diagnostics taken from the record. -/
def taken : Event → List Diagnostic
  | drain taken => taken
  | _ => []

/-- Whether it is a run of a source with an error in its text. -/
def hasStaticError : Event → Bool
  | run source _ _ => !(Session.staticDiagnostics source).isEmpty
  | _ => false

/-- Whether it is a run the program of which failed. -/
def failed : Event → Bool
  | run _ _ failure => failure.isSome
  | _ => false

/-- Whether it is no run that came to anything but success. -/
def succeeds : Event → Bool
  | run _ outcome _ => outcome = .success
  | _ => true

def isReset : Event → Bool
  | reset => true
  | _ => false

end Event

/-- The events after the last reset. -/
def sinceReset (events : List Event) : List Event := events.rtakeWhile (!·.isReset)

theorem sinceReset_concat {event : Event} (h : event.isReset = false) (events : List Event) :
    sinceReset (events ++ [event]) = sinceReset events ++ [event] :=
  List.rtakeWhile_concat_pos _ _ _ (by simp [h])

theorem sinceReset_reset (events : List Event) : sinceReset (events ++ [.reset]) = [] :=
  List.rtakeWhile_concat_neg _ _ _ (by simp [Event.isReset])

/-! ### The diagnostics of one run -/

theorem isStatic_of_mem_staticDiagnostics {source : String} {d : Diagnostic}
    (h : d ∈ Session.staticDiagnostics source) : d.isStatic = true := by
  rcases List.mem_append.mp h with h | h
  · obtain ⟨⟨fault, line⟩, -, rfl⟩ := List.mem_map.mp h
    rfl
  · obtain ⟨⟨blamed, problem⟩, -, rfl⟩ := List.mem_map.mp h
    cases blamed <;> rfl

theorem isStatic_failure (f : Failure) : f.diagnostic.isStatic = false := by
  cases f <;> rfl

theorem any_static_failure (failure : Option Failure) :
    (failure.toList.map Failure.diagnostic).any Diagnostic.isStatic = false := by
  cases failure with
  | none => rfl
  | some f => simp [isStatic_failure]

section Added

variable (source : String) (outcome : Outcome) (failure : Option Failure)

theorem any_static_added : (Event.run source outcome failure).added.any Diagnostic.isStatic =
    (Event.run source outcome failure).hasStaticError := by
  have hs : (Session.staticDiagnostics source).any Diagnostic.isStatic =
      !(Session.staticDiagnostics source).isEmpty := by
    have hall := fun d (h : d ∈ Session.staticDiagnostics source) => isStatic_of_mem_staticDiagnostics h
    rcases hd : Session.staticDiagnostics source with _ | ⟨d, rest⟩
    · rfl
    · rw [List.any_cons, hall d (by rw [hd]; exact List.mem_cons_self)]
      rfl
  show (Session.staticDiagnostics source ++ failure.toList.map Failure.diagnostic).any _ = _
  rw [List.any_append, hs, any_static_failure, Bool.or_false]
  rfl

theorem any_not_static_added : (Event.run source outcome failure).added.any (!·.isStatic) =
    (Event.run source outcome failure).failed := by
  have hs : (Session.staticDiagnostics source).any (!·.isStatic) = false := by
    rw [List.any_eq_false]
    intro d h
    simp [isStatic_of_mem_staticDiagnostics h]
  have hf : (failure.toList.map Failure.diagnostic).any (!·.isStatic) = failure.isSome := by
    cases failure with
    | none => rfl
    | some f => simp [isStatic_failure]
  show (Session.staticDiagnostics source ++ failure.toList.map Failure.diagnostic).any _ = _
  rw [List.any_append, hs, hf, Bool.false_or]
  rfl

end Added

theorem Diagnostics.recordAll_append (ds : Diagnostics) (first later : List Diagnostic) :
    (ds.recordAll first).recordAll later = ds.recordAll (first ++ later) :=
  List.foldl_append.symm

namespace Session

section Takes

variable {session next : Session} {source : String} {outcome : Outcome} {failure : Option Failure}

/-- What a run does to the record. -/
theorem Takes.record_eq (h : Takes session (.run source outcome failure) next) :
    next.diagnostics = (opening session.options session.diagnostics).recordAll
      (Event.run source outcome failure).added := by
  rcases h.of_run with ⟨-, -, rfl, rfl⟩ | ⟨-, -, -, hn⟩
  · show session.checked source = _
    rw [checked, Event.added, Option.toList_none, List.map_nil, List.append_nil]
    rfl
  · rw [hn, settled, checked, Diagnostics.recordAll_append]
    rfl

theorem Takes.pending_eq (h : Takes session (.run source outcome failure) next) :
    next.diagnostics.pending = (opening session.options session.diagnostics).pending ++
      (Event.run source outcome failure).added := by
  rw [h.record_eq, Diagnostics.pending_recordAll]

theorem Takes.hadError_eq (h : Takes session (.run source outcome failure) next) :
    next.diagnostics.hadError = ((opening session.options session.diagnostics).hadError ||
      (Event.run source outcome failure).hasStaticError) := by
  rw [h.record_eq, Diagnostics.hadError_recordAll, any_static_added]

theorem Takes.hadRuntimeError_eq (h : Takes session (.run source outcome failure) next) :
    next.diagnostics.hadRuntimeError =
      ((opening session.options session.diagnostics).hadRuntimeError ||
        (Event.run source outcome failure).failed) := by
  rw [h.record_eq, Diagnostics.hadRuntimeError_recordAll, any_not_static_added]

/-- The outcome of a run is what its record says. -/
theorem Takes.outcome_eq (h : Takes session (.run source outcome failure) next) :
    outcome = if next.diagnostics.hadError then .staticError
      else if next.diagnostics.hadRuntimeError then .runtimeError else .success := by
  rcases h.of_run with ⟨hc, rfl, -, rfl⟩ | ⟨hc, -, ho, hnext⟩
  · exact (if_pos hc).symm
  · have hn : next.diagnostics.hadError = false := by
      rw [hnext, settled, Diagnostics.hadError_recordAll, hc, any_static_failure]
      rfl
    rw [hn]
    exact ho

end Takes

/-- What a run from `session` to `next` answers, if the errors in `counted` count. After a static
error nothing is executed, and only what is to be listed is written; otherwise the program is. -/
structure Answers (session : Session) (source : String) (outcome : Outcome)
    (failure : Option Failure) (next : Session) (counted : List Event) : Prop where
  staticError_iff : outcome = .staticError ↔ ∃ e ∈ counted, e.hasStaticError
  untouched : outcome = .staticError → failure = none ∧
    next.state = ⟨session.state.environment,
      list (listing session.options (scan source).tokens (program source)) session.state.sink⟩
  executed : outcome ≠ .staticError → ∃ rounds,
    interpret rounds (program source) (session.listed source) = ending failure next.state
  runtimeError_iff : outcome = .runtimeError ↔
    outcome ≠ .staticError ∧ ∃ e ∈ counted, e.failed

/-- A run answers by its record. -/
theorem Takes.answers {session next : Session} {source : String} {outcome : Outcome}
    {failure : Option Failure} {counted : List Event}
    (h : Takes session (.run source outcome failure) next)
    (hs : next.diagnostics.hadError = counted.any Event.hasStaticError)
    (hr : next.diagnostics.hadRuntimeError = counted.any Event.failed) :
    Answers session source outcome failure next counted := by
  have ho := h.outcome_eq
  rw [hs, hr] at ho
  have hstatic : outcome = .staticError ↔ ∃ e ∈ counted, e.hasStaticError := by
    rw [← List.any_eq_true, ho]
    split
    · simp [*]
    · split <;> simp [*]
  refine ⟨hstatic, fun he => ?_, fun he => ?_, ?_⟩
  · rcases h.of_run with ⟨-, -, hf, rfl⟩ | ⟨-, -, ho', -⟩
    · exact ⟨hf, rfl⟩
    · rw [he] at ho'
      split at ho' <;> cases ho'
  · rcases h.of_run with ⟨-, ho', -, -⟩ | ⟨-, hi, -, -⟩
    · exact absurd ho' he
    · exact hi
  · rw [← List.any_eq_true, ho]
    split
    · simp
    · split <;> simp [*]

/-! ### The record of a history -/

/-- What a session under the sticky policy has on record of its history. -/
structure Remembers (events : List Event) (session : Session) : Prop where
  pending : (sinceReset events).flatMap Event.taken ++ session.diagnostics.pending =
    (sinceReset events).flatMap Event.added
  hadError : session.diagnostics.hadError = (sinceReset events).any Event.hasStaticError
  hadRuntimeError : session.diagnostics.hadRuntimeError = (sinceReset events).any Event.failed

theorem Remembers.step {events : List Event} {event : Event} {session next : Session}
    (h : Remembers events session) (hs : session.options.sticky = true)
    (ht : Takes session event next) : Remembers (events ++ [event]) next := by
  obtain ⟨hp, he, hr⟩ := h
  have ho : opening session.options session.diagnostics = session.diagnostics := if_pos hs
  cases event with
  | run source outcome failure =>
    have hpending := ht.pending_eq
    have herror := ht.hadError_eq
    have hruntime := ht.hadRuntimeError_eq
    rw [ho] at hpending herror hruntime
    constructor
    · rw [sinceReset_concat rfl, List.flatMap_append, List.flatMap_append, hpending, ← hp]
      simp [Event.taken]
    · rw [sinceReset_concat rfl, herror, he]
      simp
    · rw [sinceReset_concat rfl, hruntime, hr]
      simp
  | drain taken =>
    cases ht with
    | drain =>
      constructor
      · rw [sinceReset_concat rfl, List.flatMap_append, List.flatMap_append, ← hp]
        simp [Event.taken, Event.added, Session.drain, Diagnostics.drain]
      · rw [sinceReset_concat rfl, List.any_append, ← he]
        simp [Event.hasStaticError, Session.drain, Diagnostics.drain]
      · rw [sinceReset_concat rfl, List.any_append, ← hr]
        simp [Event.failed, Session.drain, Diagnostics.drain]
  | reset =>
    cases ht with
    | reset =>
      constructor <;> rw [sinceReset_reset] <;> rfl

theorem Leads.remembers {options : Options} {sink : Sink} {events : List Event} {last : Session}
    (h : Leads (new options sink) events last) (hs : options.sticky = true) :
    Remembers events last := by
  induction h with
  | start => exact ⟨rfl, rfl, rfl⟩
  | step h ht ih => exact ih.step (by rw [h.options_eq]; exact hs) ht

/-! ### The two policies -/

/-- The session under the other policy, or the same. -/
def withPolicy (sticky : Bool) (session : Session) : Session :=
  { session with options := { session.options with sticky } }

theorem opening_empty (options : Options) : opening options {} = {} := by
  unfold opening
  split <;> rfl

/-- As long as there is nothing on record, the policy makes no difference. -/
theorem Takes.withPolicy {session next : Session} {event : Event} (h : Takes session event next)
    (hd : session.diagnostics = {}) (sticky : Bool) :
    Takes (session.withPolicy sticky) event (next.withPolicy sticky) := by
  cases h with
  | @run rounds source outcome _ _ hr =>
    have hc : (session.withPolicy sticky).checked source = session.checked source := by
      have hd' : (session.withPolicy sticky).diagnostics = {} := hd
      rw [checked, checked, hd, hd', opening_empty, opening_empty]
    have hl : (session.withPolicy sticky).listed source = session.listed source := rfl
    have hr' : Session.run rounds source (session.withPolicy sticky) =
        .ok outcome (next.withPolicy sticky) := by
      rcases ends_of_run hr with ⟨he, rfl, rfl⟩ | ⟨he, failure, hi, ho, hn⟩
      · rw [run_of_static (by rw [hc, he]), hc]
        rfl
      · have hs : (session.withPolicy sticky).settled source failure = next.diagnostics := by
          rw [settled, hc, hn]
          rfl
        have hrun := run_of_ending (hc ▸ he) (hl ▸ hi)
        rw [hs, ← ho] at hrun
        refine hrun.trans ?_
        rw [hn]
        rfl
    exact .run hr'
  | drain => exact .drain (session.withPolicy sticky)
  | reset => exact .reset (session.withPolicy sticky)

theorem Takes.diagnostics_of_succeeds {session next : Session} {event : Event}
    (h : Takes session event next) (hd : session.diagnostics = {}) (hs : event.succeeds = true) :
    next.diagnostics = {} := by
  cases event with
  | run source outcome failure =>
    obtain rfl : outcome = .success := of_decide_eq_true hs
    have ho := h.outcome_eq
    have he := h.hadError_eq
    have hr := h.hadRuntimeError_eq
    have hrecord := h.record_eq
    rw [hd, opening_empty] at he hr hrecord
    have hnone : (Event.run source .success failure).added = [] := by
      cases hn : next.diagnostics.hadError <;> cases hn' : next.diagnostics.hadRuntimeError <;>
        simp [hn, hn'] at ho
      rw [hn] at he
      rw [hn'] at hr
      have hsource : Session.staticDiagnostics source = [] := by
        simpa [Event.hasStaticError] using he
      have hfailure : failure = none := by
        simpa [Event.failed] using hr
      rw [hfailure]
      show Session.staticDiagnostics source ++ [] = []
      rw [hsource]
      rfl
    rw [hrecord, hnone]
    rfl
  | drain taken =>
    cases h with
    | drain =>
      show (session.diagnostics.drain).2 = {}
      rw [hd]
      rfl
  | reset =>
    cases h with
    | reset => rfl

variable {options : Options} {sink : Sink} {events : List Event} {last : Session}

/-- A session in which all runs succeed has nothing on record. -/
theorem Leads.diagnostics_of_succeeds (h : Leads (new options sink) events last)
    (hs : ∀ e ∈ events, e.succeeds = true) : last.diagnostics = {} := by
  induction h with
  | start => rfl
  | step _ ht ih =>
    have hd := ih fun e he => hs e (List.mem_append_left _ he)
    exact ht.diagnostics_of_succeeds hd (hs _ (List.mem_append_right _ List.mem_cons_self))

/-- Up to and with the first run that does not succeed, the policy makes no difference. -/
theorem Leads.withPolicy (h : Leads (new options sink) events last)
    (hs : ∀ e ∈ events.dropLast, e.succeeds = true) (sticky : Bool) :
    Leads ((new options sink).withPolicy sticky) events (last.withPolicy sticky) := by
  induction h with
  | start => exact .start
  | step h ht ih =>
    rw [List.dropLast_concat] at hs
    have hlead := ih fun e he => hs e ((List.dropLast_sublist _).mem he)
    exact hlead.step (ht.withPolicy (h.diagnostics_of_succeeds hs) sticky)

end Session

/-- **Outcomes and diagnostics follow the history.** Under the sticky policy a run answers by the
errors since the last reset, its own among them, and what was taken since then, followed by what is
pending, is what the runs have added, in order. Under the other policy a run answers by its own
errors alone, and only what it adds is pending after it, whatever was on record. Up to and with the
first run that does not succeed, the same steps come to the same under both policies. -/
theorem outcomes_follow_history :
    (∀ (options : Options) (sink : Sink) (events : List Event) (session : Session),
      options.sticky = true → Session.Leads (.new options sink) events session →
      (sinceReset events).flatMap Event.taken ++ session.diagnostics.pending =
        (sinceReset events).flatMap Event.added ∧
      ∀ source outcome failure next,
        session.Takes (.run source outcome failure) next →
        session.Answers source outcome failure next
          (sinceReset (events ++ [.run source outcome failure])) ∧
        next.diagnostics.pending =
          session.diagnostics.pending ++ (Event.run source outcome failure).added) ∧
    (∀ (session next : Session) (source : String) (outcome : Outcome) (failure : Option Failure),
      session.options.sticky = false → session.Takes (.run source outcome failure) next →
      session.Answers source outcome failure next [.run source outcome failure] ∧
      next.diagnostics.pending = (Event.run source outcome failure).added) ∧
    ∀ (options : Options) (sink : Sink) (events : List Event) (last : Session),
      Session.Leads (.new options sink) events last →
      (∀ e ∈ events.dropLast, e.succeeds = true) →
      ∀ (sticky : Bool) (events' : List Event) (last' : Session),
        Session.Leads (.withPolicy sticky (.new options sink)) events' last' ∧
            events.map Event.step = events'.map Event.step ↔
          events' = events ∧ last' = last.withPolicy sticky := by
  refine ⟨?_, ?_, ?_⟩
  · intro options sink events session hs h
    refine ⟨(h.remembers hs).pending, fun source outcome failure next ht => ?_⟩
    have hso : session.options.sticky = true := by
      rw [h.options_eq]
      exact hs
    have hr := ((h.remembers hs).step hso ht)
    have hp := ht.pending_eq
    rw [Session.opening, if_pos hso] at hp
    exact ⟨ht.answers hr.hadError hr.hadRuntimeError, hp⟩
  · intro session next source outcome failure hs ht
    have ho : Session.opening session.options session.diagnostics = {} :=
      if_neg (by rw [hs]; decide)
    have hp := ht.pending_eq
    have he := ht.hadError_eq
    have hr := ht.hadRuntimeError_eq
    rw [ho] at hp he hr
    refine ⟨ht.answers ?_ ?_, hp⟩
    · rw [he]
      simp
    · rw [hr]
      simp
  · intro options sink events last h hs sticky events' last'
    have hp := h.withPolicy hs sticky
    constructor
    · rintro ⟨h', hsteps⟩
      obtain ⟨rfl, rfl⟩ := hp.unique h' hsteps
      exact ⟨rfl, rfl⟩
    · rintro ⟨rfl, rfl⟩
      exact ⟨hp, rfl⟩

/-- A failure counts after it is taken, unless every run starts with a clean record. -/
theorem outcomes_follow_history_of_failure :
    let options : Options := { sticky := true }
    let f : Failure := .evaluation 1 .operandNotNumber
    let failing : Event := .run "-nil;" .runtimeError (some f)
    let harmless : Event := .run "nil;" .runtimeError none
    let failed : Session := ⟨options, {}, { pending := [f.diagnostic], hadRuntimeError := true }⟩
    let drained : Session := ⟨options, {}, { hadRuntimeError := true }⟩
    Session.Leads (.new options {}) [failing] failed ∧
      Session.Leads (.new options {}) [failing, .drain [f.diagnostic]] drained ∧
      drained.Takes harmless drained ∧
      drained.Answers "nil;" .runtimeError none drained
        (sinceReset ([failing, .drain [f.diagnostic]] ++ [harmless])) ∧
      (failed.withPolicy false).Takes (.run "nil;" .success none) (.new {} {}) ∧
      (failed.withPolicy false).Answers "nil;" .success none (.new {} {})
        [.run "nil;" .success none] ∧
      Session.Leads (.withPolicy false (.new options {})) [failing] (failed.withPolicy false) := by
  intro options f failing harmless failed drained
  obtain ⟨hsticky, hclean, hpolicies⟩ := outcomes_follow_history
  have hfailing : Session.Leads (.new options {}) ([] ++ [failing]) failed := by
    have hc : (Session.new options {}).checked "-nil;" = {} := by
      simp only [options]
      cbv
    have hi : interpret 0 (Session.program "-nil;") ((Session.new options {}).listed "-nil;") =
        ending (some f) {} := by
      simp only [options, f]
      cbv
    have hr : Session.run 0 "-nil;" (.new options {}) = .ok .runtimeError failed := by
      rw [Session.run_of_ending (by rw [hc]) hi, Session.settled, hc]
      rfl
    have hf : (Session.new options {}).failure? 0 "-nil;" .runtimeError = some f := by
      simp only [options, f]
      cbv
    have ht := Session.Takes.run hr
    rw [hf] at ht
    exact .step .start ht
  have hdrained : Session.Leads (.new options {}) ([failing] ++ [.drain [f.diagnostic]]) drained :=
    .step hfailing (.drain failed)
  have hharmless : drained.Takes harmless drained := by
    have hr : Session.run 0 "nil;" drained = .ok .runtimeError drained := by
      simp only [drained, options]
      cbv
    have hf : drained.failure? 0 "nil;" .runtimeError = none := by
      simp only [drained, options]
      cbv
    have ht := Session.Takes.run hr
    rw [hf] at ht
    exact ht
  have hnew : (failed.withPolicy false).Takes (.run "nil;" .success none) (.new {} {}) := by
    have hs : Session.run 0 "nil;" (failed.withPolicy false) = Session.run 0 "nil;" (.new {} {}) := rfl
    have hr : Session.run 0 "nil;" (.new {} {}) = .ok .success (.new {} {}) := by cbv
    have hf : (Session.new {} {}).failure? 0 "nil;" .success = none := by cbv
    have ht := Session.Takes.run (hs.trans hr)
    rw [← hf]
    exact ht
  have hsame := (hpolicies options {} [failing] failed hfailing (by simp) false [failing]
    (failed.withPolicy false)).mpr ⟨rfl, rfl⟩
  exact ⟨hfailing, hdrained, hharmless,
    ((hsticky options {} _ drained rfl hdrained).2 _ _ _ _ hharmless).1, hnew,
    (hclean _ _ _ _ _ rfl hnew).1, hsame.1⟩

end Lox
