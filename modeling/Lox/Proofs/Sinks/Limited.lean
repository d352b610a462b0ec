/-
# Sessions with a limited sink

Of two sessions with which the same is done, one on a sink that takes
everything and one on a sink with a limit, the second has written the
beginning of what the first has. As long as all of it fits there is no other
difference. After that the programs of the second may stop where those of the
first go on, but nothing they write is taken.

Key definitions: `Session.truncated`, `Session.Limits`.
Key theorems: `Session.Takes.truncated`, `Session.Limits.step`, `limited_sink_truncates_output`.
-/
import Mathlib
import Lox.Proofs.Scopes.Restored
import Lox.Proofs.Sinks.Refused

namespace Lox
namespace Session

/-- The session with a sink that has taken `limit` bytes and no more. -/
def truncated (limit : Nat) (session : Session) : Session :=
  { session with state := session.state.truncated limit }

section Run

variable {limit rounds : Nat} {source : String} {outcome : Outcome} {whole next : Session}

theorem listed_truncated (limit : Nat) (source : String) (hn : whole.state.sink.limit = none) :
    (whole.truncated limit).listed source = (whole.listed source).truncated limit :=
  congrArg (State.mk whole.state.environment ·) (Sink.list_truncated limit _ hn)

theorem limit_listed (source : String) (hn : whole.state.sink.limit = none) :
    (whole.listed source).sink.limit = none :=
  (listed_grows source whole).limit_eq.trans hn

/-- What a run that ends writes is its listing and, if it executes it, what the program writes. -/
theorem sink_of_run (h : run rounds source whole = .ok outcome next) : next.state.sink =
    if (whole.checked source).hadError then (whole.listed source).sink
    else ((interpret rounds (program source)).after (whole.listed source)).sink := by
  rcases ends_of_run h with ⟨hc, -, rfl⟩ | ⟨hc, failure, hi, -, -⟩
  · rw [if_pos hc]
  · rw [if_neg (by rw [hc]; decide), Action.after_of_ending hi]

/-- A run on the sink with the limit writes the beginning of what it writes without. -/
theorem sink_run_truncated {outcome' : Outcome} {other : Session}
    (h : run rounds source whole = .ok outcome next)
    (h' : run rounds source (whole.truncated limit) = .ok outcome' other)
    (hn : whole.state.sink.limit = none) :
    other.state.sink = next.state.sink.truncated limit := by
  have hc : (whole.truncated limit).checked source = whole.checked source := rfl
  rw [sink_of_run h, sink_of_run h', hc, listed_truncated limit source hn]
  split
  · rfl
  · exact sink_interpret_truncated rounds (program source) limit (limit_listed source hn)

/-- What a run writes fits: then the limit makes no difference to it. -/
theorem run_truncated (h : run rounds source whole = .ok outcome next)
    (hn : whole.state.sink.limit = none) (hf : next.state.sink.accepted.size ≤ limit) :
    run rounds source (whole.truncated limit) = .ok outcome (next.truncated limit) ∧
      (whole.truncated limit).failure? rounds source outcome =
        whole.failure? rounds source outcome := by
  have hc : (whole.truncated limit).checked source = whole.checked source := rfl
  have hl := listed_truncated limit source hn
  rcases ends_of_run h with ⟨he, rfl, rfl⟩ | ⟨he, failure, hi, ho, hnext⟩
  · rw [run_of_static (by rw [hc, he]), hl]
    exact ⟨rfl, rfl⟩
  · have hg := interpret_grows rounds (program source) (whole.listed source)
    rw [Action.after_of_ending hi] at hg
    have hsize := hg.size_le
    have hfits : (whole.listed source).Fits limit := ⟨limit_listed source hn, by omega⟩
    have hi' : interpret rounds (program source) ((whole.truncated limit).listed source) =
        ending failure (next.state.truncated limit) := by
      rcases interpret_truncates rounds (program source) limit _ hfits with ⟨-, heq⟩ | ⟨hp, -⟩
      · rw [hl, heq, hi, mapState_ending]
      · rw [Action.after_of_ending hi] at hp
        omega
    have hr := run_of_ending (hc ▸ he) hi'
    have hs : (whole.truncated limit).settled source failure = next.diagnostics := by
      rw [hnext]
      rfl
    rw [hs, ← ho] at hr
    refine ⟨hr.trans ?_, ?_⟩
    · rw [hnext]
      rfl
    · cases outcome <;> simp only [failure?, hi, hi', failureOf_ending]

end Run

section Limits

variable {limit : Nat} {whole part next other : Session} {event event' : Event}

/-- A step the output of which fits leads to the same with the limit. -/
theorem Takes.truncated (h : Takes whole event next) (hn : whole.state.sink.limit = none)
    (hf : next.state.sink.accepted.size ≤ limit) :
    Takes (whole.truncated limit) event (next.truncated limit) := by
  cases h with
  | run hr =>
    obtain ⟨hr', hfail⟩ := run_truncated hr hn hf
    rw [← hfail]
    exact .run hr'
  | drain => exact .drain (whole.truncated limit)
  | reset => exact .reset (whole.truncated limit)

/-- A step with the limit writes the beginning of what it writes without. -/
theorem Takes.sink_truncated (h : Takes whole event next) (h' : Takes (whole.truncated limit) event' other)
    (hs : event.step = event'.step) (hn : whole.state.sink.limit = none) :
    other.state.sink = next.state.sink.truncated limit := by
  cases h with
  | @run rounds source _ _ _ hr =>
    cases h' with
    | @run rounds' source' _ _ _ hr' =>
      obtain rfl : source = source' := Step.run.inj hs
      have hl := run_more (Nat.le_max_left rounds rounds') hr
      have hm := run_more (Nat.le_max_right rounds rounds') hr'
      exact sink_run_truncated hl hm hn
    | drain => cases hs
    | reset => cases hs
  | drain =>
    cases h' with
    | run _ => cases hs
    | drain => rfl
    | reset => cases hs
  | reset =>
    cases h' with
    | run _ => cases hs
    | drain => cases hs
    | reset => rfl

/-- How a session on a sink with a limit stands to the one on a sink that takes everything. -/
structure Limits (limit : Nat) (events : List Event) (whole : Session) (events' : List Event)
    (part : Session) : Prop where
  unlimited : whole.state.sink.limit = none
  sink : part.state.sink = whole.state.sink.truncated limit
  fits : whole.state.sink.accepted.size ≤ limit → events' = events ∧ part = whole.truncated limit

theorem Limits.step {events events' : List Event} (h : Limits limit events whole events' part)
    (ht : Takes whole event next) (ht' : Takes part event' other) (hs : event.step = event'.step) :
    Limits limit (events ++ [event]) next (events' ++ [event']) other := by
  obtain ⟨hn, hsink, hfits⟩ := h
  have hg := ht.grows
  have hsize := hg.size_le
  by_cases hl : whole.state.sink.accepted.size ≤ limit
  · obtain ⟨rfl, rfl⟩ := hfits hl
    refine ⟨hg.limit_eq.trans hn, ht.sink_truncated ht' hs hn, fun hf => ?_⟩
    obtain ⟨rfl, rfl⟩ := (ht.truncated hn hf).unique ht' hs
    exact ⟨rfl, rfl⟩
  · -- the sink with the limit is full, and stays as it is
    have hfull : limit ≤ part.state.sink.accepted.size := by
      rw [hsink, Sink.size_truncated]
      omega
    have hlim : part.state.sink.limit = some limit := by
      rw [hsink]
      rfl
    refine ⟨hg.limit_eq.trans hn, ?_, fun hf => by omega⟩
    rw [ht'.grows.eq_of_full hlim hfull, hg.truncated_eq (by omega), hsink]

end Limits

end Session

/-- **A sink that fills up truncates the output and nothing else.** Of two sessions with which the
same is done, the one on a sink that takes `limit` bytes in all has written the first `limit` bytes
of what the other has, or all of them if there are fewer; and if there are not more, nothing else is
different. For the interpretation of one program: if its output fits, it comes to the same. If not,
it stops because of the output, in the print with which the limit is passed. The variables are left
as that print leaves them, with its scopes closed, and the run comes to no statement that the
program does not come to, in the same state, before it passes the limit. -/
theorem limited_sink_truncates_output :
    (∀ (limit : Nat) (options : Options) (sink : Sink) (events events' : List Event)
      (whole part : Session), sink.limit = none →
      Session.Leads (.new options sink) events whole →
      Session.Leads (.new options (sink.truncated limit)) events' part →
      events.map Event.step = events'.map Event.step →
      part.state.sink.accepted = whole.state.sink.accepted.extract 0
        (min limit whole.state.sink.accepted.size) ∧
      (whole.state.sink.accepted.size ≤ limit → events' = events ∧ part = whole.truncated limit)) ∧
    ∀ (rounds : Nat) (program : Declarations) (limit : Nat) (st : State), st.Fits limit →
      let last := (interpret rounds program).after st
      (last.sink.accepted.size ≤ limit →
        interpret rounds program (st.truncated limit) =
          mapState (State.truncated limit) (interpret rounds program st)) ∧
      (limit < last.sink.accepted.size →
        ∃ path value v env here, ComesIn rounds program st path (.print value) here ∧
          evaluate value here.environment = .ok v env ∧
          here.sink.accepted.size ≤ limit ∧
          limit < here.sink.accepted.size + (v.text ++ "\n").toUTF8.size ∧
          interpret rounds program (st.truncated limit) =
            .error (.failure (.output st.sink.refusal))
              ⟨env.closed path, last.sink.truncated limit⟩ ∧
          (env.closed path).depth = st.environment.depth ∧
          ∀ path' t other, ComesIn rounds program (st.truncated limit) path' t other →
            ∃ mid, ComesIn rounds program st path' t mid ∧ other = mid.truncated limit ∧
              mid.sink.accepted.size ≤ limit) := by
  constructor
  · intro limit options sink events events' whole part hn h h' hs
    have hstart : Session.Limits limit [] (.new options sink) [] (.new options (sink.truncated limit)) :=
      ⟨hn, rfl, fun _ => ⟨rfl, rfl⟩⟩
    have hlim : Session.Limits limit events whole events' part :=
      h.lockstep hstart (fun hl ht ht' he => hl.step ht ht' he) h' hs
    refine ⟨?_, hlim.fits⟩
    rw [hlim.sink]
    show whole.state.sink.accepted.extract 0 limit = _
    by_cases hl : limit ≤ whole.state.sink.accepted.size
    · rw [Nat.min_eq_left hl]
    · rw [Nat.min_eq_right (by omega), ByteArray.extract_zero_size, extract_of_size_le (by omega)]
  · intro rounds program limit st hf last
    refine ⟨fun hle => ?_, fun hp => ?_⟩
    · rcases interpret_truncates rounds program limit st hf with ⟨-, heq⟩ | ⟨hp, -⟩
      · exact heq
      · exact absurd hle (Nat.not_le_of_lt hp)
    · obtain ⟨path, value, v, env, here, hc, he, hle, hline, heq⟩ := interpret_passes_limit hf hp
      have hd := interpret_depth rounds program (st.truncated limit)
      rw [Action.after_of_error heq] at hd
      refine ⟨path, value, v, env, here, hc, he, hle, hline, heq, hd, fun path' t other hc' => ?_⟩
      obtain ⟨mid, hmid, rfl, hfits⟩ := hc'.unlimited hf rfl
      exact ⟨mid, hmid, rfl, hfits.size_le⟩

/-- `print nil;` on a sink with room for two bytes. -/
theorem limited_sink_truncates_print :
    let program : Declarations := [some (.print (.literal .nil))]
    let whole : Session := ⟨{}, ⟨{}, { accepted := "nil\n".toUTF8 }⟩, {}⟩
    let part : Session := ⟨{}, ⟨{}, { limit := some 2, accepted := "ni".toUTF8 }⟩,
      { pending := [.output ""], hadRuntimeError := true }⟩
    Session.Leads (.new {} {}) [.run "print nil;" .success none] whole ∧
      Session.Leads (.new {} (Sink.truncated 2 {}))
        [.run "print nil;" .runtimeError (some (.output ""))] part ∧
      part.state.sink.accepted = whole.state.sink.accepted.extract 0
        (min 2 whole.state.sink.accepted.size) ∧
      (State.mk {} {}).Fits 2 ∧
      ∃ env path, interpret 1 program (State.truncated 2 {}) =
        .error (.failure (.output ""))
          ⟨Environment.closed env path, { limit := some 2, accepted := "ni".toUTF8 }⟩ := by
  intro program whole part
  have hw : Session.Leads (.new {} {}) ([] ++ [.run "print nil;" .success none]) whole := by
    have hr : Session.run 1 "print nil;" (.new {} {}) = .ok .success whole := by cbv
    have hf : (Session.new {} {}).failure? 1 "print nil;" .success = none := by cbv
    rw [← hf]
    exact .step .start (.run hr)
  have hp : Session.Leads (.new {} (Sink.truncated 2 {}))
      ([] ++ [.run "print nil;" .runtimeError (some (.output ""))]) part := by
    have hr : Session.run 1 "print nil;" (.new {} (Sink.truncated 2 {})) = .ok .runtimeError part := by
      cbv
    have hf : (Session.new {} (Sink.truncated 2 {})).failure? 1 "print nil;" .runtimeError =
        some (.output "") := by cbv
    rw [← hf]
    exact .step .start (.run hr)
  obtain ⟨hsessions, hprograms⟩ := limited_sink_truncates_output
  have hfits : (State.mk {} {}).Fits 2 := ⟨rfl, by decide⟩
  have hpass : 2 < ((interpret 1 program).after ({} : State)).sink.accepted.size := by decide
  obtain ⟨path, value, v, env, here, -, -, -, -, heq, -⟩ := (hprograms 1 program 2 {} hfits).2 hpass
  refine ⟨hw, hp, (hsessions 2 {} {} _ _ whole part rfl hw hp rfl).1, hfits, env, path, ?_⟩
  exact heq

end Lox
