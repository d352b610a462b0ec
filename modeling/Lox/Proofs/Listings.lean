/-
# Listings change nothing

On request a run lists its tokens and the outline of its program before it
executes anything, into the sink its program writes to. On a sink that takes
everything nothing else depends on what is listed: whatever is done with two
sessions that differ in it, the same comes of it, and a run writes the same
after its listings.

Key definitions: `Event.listed`, `Session.withListings`, `Session.listingTo`.
Key theorems: `Session.Takes.listingTo`, `Session.Leads.listingTo`, `listings_are_inert`.
-/
import Mathlib
import Lox.Proofs.Histories
import Lox.Proofs.Output

namespace Lox

/-- What is listed with an event: on request every token of the source, each on a line, and on
request the outline of the program. -/
def Event.listed (options : Options) : Event → String
  | run source _ _ =>
    (if options.listTokens then String.join ((scan source).tokens.map (·.text ++ "\n")) else "") ++
      (if options.listOutline then outline (parse (scan source).tokens).declarations ++ "\n" else "")
  | _ => ""

namespace Session

theorem listingText_eq (options : Options) (source : String) (outcome : Outcome)
    (failure : Option Failure) :
    listingText options source = (Event.run source outcome failure).listed options := by
  rw [listingText, listing, List.map_append, String.join_append]
  unfold Event.listed
  congr 1
  · split
    · rw [List.map_map]
      rfl
    · rfl
  · split
    · rw [List.map_singleton, String.join_cons, String.join_nil, String.append_empty]
      rfl
    · rfl

/-- The session with these listings requested. -/
def withListings (tokens outline : Bool) (session : Session) : Session :=
  { session with options := { session.options with listTokens := tokens, listOutline := outline } }

/-- The session with these listings requested and these bytes written. -/
def listingTo (tokens outline : Bool) (bytes : ByteArray) (session : Session) : Session :=
  (session.withListings tokens outline).holding bytes

section Step

variable {session next first last : Session} {event : Event} {events : List Event}

theorem listed_listingTo (source : String) (hn : session.state.sink.limit = none)
    (tokens outline : Bool) (bytes : ByteArray) :
    (session.listingTo tokens outline bytes).listed source = (session.listed source).holding
      (bytes ++ (listingText (session.listingTo tokens outline bytes).options source).toUTF8) := by
  have hb : (session.listingTo tokens outline bytes).state.sink.limit = none := hn
  rw [listed_of_limit_none source hb, listed_of_limit_none source hn]
  rfl

/-- A run with other listings, and with other bytes written before, comes to the same. -/
theorem run_listingTo {rounds : Nat} {source : String} {outcome : Outcome}
    (h : Session.run rounds source session = .ok outcome next)
    (hn : session.state.sink.limit = none) :
    next.state.sink.limit = none ∧ ∃ chunk, ∀ tokens outline bytes,
      Session.run rounds source (session.listingTo tokens outline bytes) =
        .ok outcome (next.listingTo tokens outline (bytes ++
          (listingText (session.listingTo tokens outline bytes).options source).toUTF8 ++ chunk)) ∧
      (session.listingTo tokens outline bytes).failure? rounds source outcome =
        session.failure? rounds source outcome := by
  have hlisted := listed_listingTo source hn
  obtain ⟨hln, -⟩ := listed_adds source hn
  have hc : ∀ tokens outline bytes,
      (session.listingTo tokens outline bytes).checked source = session.checked source :=
    fun _ _ _ => rfl
  rcases ends_of_run h with ⟨he, rfl, rfl⟩ | ⟨he, failure, hi, ho, hnext⟩
  · -- nothing is written after the listings
    refine ⟨hln, .empty, fun tokens outline bytes => ⟨?_, rfl⟩⟩
    rw [run_of_static (by rw [hc, he]), hlisted, ByteArray.append_empty]
    rfl
  · obtain ⟨hl, chunk, hadds⟩ := interpret_adds rounds (program source) (session.listed source) hln
    rw [Action.after_of_ending hi] at hl
    refine ⟨hl, chunk, fun tokens outline bytes => ?_⟩
    have hi' := hadds (bytes ++
      (listingText (session.listingTo tokens outline bytes).options source).toUTF8)
    rw [← hlisted, hi, mapState_ending] at hi'
    have hs : (session.listingTo tokens outline bytes).settled source failure = next.diagnostics := by
      rw [hnext]
      rfl
    constructor
    · have hr := run_of_ending (hc tokens outline bytes ▸ he) hi'
      rw [hs, ← ho] at hr
      refine hr.trans ?_
      rw [hnext]
      rfl
    · cases outcome <;> simp only [failure?, hi, hi', failureOf_ending]

/-- A step with other listings, and with other bytes written before, comes to the same. -/
theorem Takes.listingTo (h : Takes session event next) (hn : session.state.sink.limit = none) :
    next.state.sink.limit = none ∧ ∃ chunk, ∀ tokens outline bytes,
      Takes (session.listingTo tokens outline bytes) event
        (next.listingTo tokens outline (bytes ++
          (event.listed (session.listingTo tokens outline bytes).options).toUTF8 ++ chunk)) := by
  have hb : ∀ bytes : ByteArray, bytes ++ "".toUTF8 ++ .empty = bytes := fun bytes => by
    rw [ByteArray.append_empty]
    exact ByteArray.append_empty
  cases h with
  | @run rounds source outcome _ _ hr =>
    obtain ⟨hl, chunk, hrun⟩ := run_listingTo hr hn
    refine ⟨hl, chunk, fun tokens outline bytes => ?_⟩
    obtain ⟨hr', hfail⟩ := hrun tokens outline bytes
    rw [listingText_eq _ source outcome (session.failure? rounds source outcome)] at hr'
    have ht := Takes.run hr'
    rw [hfail] at ht
    exact ht
  | drain =>
    refine ⟨hn, .empty, fun tokens outline bytes => ?_⟩
    simp only [Event.listed, hb]
    exact .drain (session.listingTo tokens outline bytes)
  | reset =>
    refine ⟨hn, .empty, fun tokens outline bytes => ?_⟩
    simp only [Event.listed, hb]
    exact .reset (session.listingTo tokens outline bytes)

/-- The same steps with other listings lead to the same, but for what is written. -/
theorem Leads.listingTo (h : Leads first events last) (hn : first.state.sink.limit = none)
    (tokens outline : Bool) (bytes : ByteArray) : last.state.sink.limit = none ∧
      ∃ bytes', Leads (first.listingTo tokens outline bytes) events
        (last.listingTo tokens outline bytes') := by
  induction h with
  | start => exact ⟨hn, bytes, .start⟩
  | step _ ht ih =>
    obtain ⟨hm, bytes', hlead⟩ := ih
    obtain ⟨hl, chunk, htakes⟩ := ht.listingTo hm
    exact ⟨hl, _, hlead.step (htakes tokens outline bytes')⟩

end Step

end Session

/-- **Listings change nothing.** On a sink that takes everything, what is done with a session comes
to the same whatever listings are requested: the same events, the same record and the same
variables after every step. What a run writes is what it lists, each token of the source on a line
and then the outline of its program as far as they are requested, and then the same with any
listings. -/
theorem listings_are_inert {first mid last : Session} {events : List Event} {event : Event}
    (hn : first.state.sink.limit = none) (h : first.Leads events mid) (ht : mid.Takes event last)
    (tokens outline : Bool) :
    let other := first.withListings tokens outline
    ∃ mid' last' chunk,
      (∀ events' event' there later,
        other.Leads events' there ∧ there.Takes event' later ∧
            events.map Event.step = events'.map Event.step ∧ event.step = event'.step ↔
          events' = events ∧ event' = event ∧ there = mid' ∧ later = last') ∧
      last'.diagnostics = last.diagnostics ∧
      last'.state.environment = last.state.environment ∧
      last.state.sink.accepted =
        mid.state.sink.accepted ++ (event.listed first.options).toUTF8 ++ chunk ∧
      last'.state.sink.accepted =
        mid'.state.sink.accepted ++ (event.listed other.options).toUTF8 ++ chunk := by
  intro other
  obtain ⟨hm, bytes, hlead⟩ := h.listingTo hn tokens outline first.state.sink.accepted
  obtain ⟨-, chunk, htakes⟩ := ht.listingTo hm
  have ht' := htakes tokens outline bytes
  have hoptions := h.options_eq
  have ho : (mid.listingTo tokens outline bytes).options = other.options :=
    congrArg (fun o => { o with listTokens := tokens, listOutline := outline }) hoptions
  rw [ho] at ht'
  refine ⟨mid.listingTo tokens outline bytes,
    last.listingTo tokens outline (bytes ++ (event.listed other.options).toUTF8 ++ chunk), chunk,
    fun events' event' there later => ?_, rfl, rfl, ?_, rfl⟩
  · constructor
    · rintro ⟨hl', hs', hsteps, hstep⟩
      obtain ⟨rfl, rfl⟩ := hlead.unique hl' hsteps
      obtain ⟨rfl, rfl⟩ := ht'.unique hs' hstep
      exact ⟨rfl, rfl, rfl, rfl⟩
    · rintro ⟨rfl, rfl, rfl, rfl⟩
      exact ⟨hlead, ht', rfl, rfl⟩
  · -- with its own listings and its own bytes the session is itself
    have hown := htakes mid.options.listTokens mid.options.listOutline mid.state.sink.accepted
    have hlast := (ht.unique hown rfl).2
    rw [← hoptions]
    exact congrArg (·.state.sink.accepted) hlast

/-- A run after one with a static error, with both listings. -/
theorem listings_are_inert_after_static_error :
    let failing : Event := .run "nil" .staticError none
    let printing : Event := .run "print nil;" .success none
    let failed : Session := ⟨{}, {}, (Session.new {} {}).checked "nil"⟩
    let last : Session := ⟨{}, ⟨{}, { accepted := "nil\n".toUTF8 }⟩, {}⟩
    Session.Leads (.new {} {}) [failing] failed ∧ failed.Takes printing last ∧
      ∃ mid' last', Session.Leads (.withListings true true (.new {} {})) [failing] mid' ∧
        mid'.Takes printing last' ∧
        last'.state.sink.accepted = mid'.state.sink.accepted ++
          "PRINT print\nNIL nil\nSEMICOLON ;\nEOF \n(print nil)\n".toUTF8 ++ "nil\n".toUTF8 := by
  intro failing printing failed last
  have hfailing : Session.Leads (.new {} {}) ([] ++ [failing]) failed := by
    have hc : ((Session.new {} {}).checked "nil").hadError = true := by cbv
    have hr : Session.run 0 "nil" (.new {} {}) = .ok .staticError failed := Session.run_of_static hc
    exact .step .start (.run hr)
  have hprinting : failed.Takes printing last := by
    have hs : Session.run 1 "print nil;" failed = Session.run 1 "print nil;" (.new {} {}) := rfl
    have hr : Session.run 1 "print nil;" (.new {} {}) = .ok .success last := by cbv
    have hf : failed.failure? 1 "print nil;" .success = none := by cbv
    have ht := Session.Takes.run (hs.trans hr)
    rw [hf] at ht
    exact ht
  obtain ⟨mid', last', chunk, hunique, -, -, hown, hother⟩ :=
    listings_are_inert rfl hfailing hprinting true true
  obtain ⟨hlead, htakes, -, -⟩ := (hunique [failing] printing mid' last').mpr ⟨rfl, rfl, rfl, rfl⟩
  refine ⟨hfailing, hprinting, mid', last', hlead, htakes, ?_⟩
  have hchunk : "nil\n".toUTF8 = chunk := by
    have hown' : "nil\n".toUTF8 = .empty ++ .empty ++ chunk := hown
    rwa [ByteArray.empty_append, ByteArray.empty_append] at hown'
  have hlisted : printing.listed { listTokens := true, listOutline := true } =
      "PRINT print\nNIL nil\nSEMICOLON ;\nEOF \n(print nil)\n" := by cbv
  rw [hchunk, ← hlisted]
  exact hother

end Lox
