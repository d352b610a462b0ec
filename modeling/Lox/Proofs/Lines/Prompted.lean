/-
# Dialogues at the prompt

What a dialogue does step by step, and over lines that succeed: each line is
run after a mark, and goes on where the one before has left off. A turn does
the same on a sink that is emptied before it.

Key definitions: `Sink.Accepting`, `Prompt.asked`, `Prompt.withMarks`, `Prompt.Ends`.
Key theorems: `Prompt.dialogue_of_unflushed`, `Prompt.dialogue_cons`, `Prompt.dialogue_turn`,
`Prompt.ends_last`, `Prompt.ends_interrupted`, `Prompt.ends_cons`, `Prompt.ends_of_succeeds`.
-/
import Lox.Proofs.Lines.Splitting
import Lox.Proofs.Sinks.Growing
import Lox.Transcript

namespace Lox

open Session

/-- The sink takes all that comes and can be flushed. -/
structure Sink.Accepting (sink : Sink) : Prop where
  unlimited : sink.limit = none
  flushed : sink.flushRefusal = none

theorem Sink.Grows.accepting {sink later : Sink} (h : sink.Grows later) (ha : sink.Accepting) :
    later.Accepting := by
  obtain ⟨⟨_, rfl⟩, _⟩ := h
  exact ⟨ha.unlimited, ha.flushed⟩

theorem Sink.Accepting.holding {session : Session} (ha : session.state.sink.Accepting)
    (bytes : ByteArray) : (session.holding bytes).state.sink.Accepting :=
  ⟨ha.unlimited, ha.flushed⟩

namespace Prompt

/-! ### The steps of a dialogue -/

/-- The session as a line is run in. -/
def asked (session : Session) : Session :=
  session.holding (session.state.sink.accepted ++ mark.toUTF8)

section Steps

variable {rounds : Nat} {line : List UInt8} {rest : List (List UInt8)} {source : String}
  {session next last : Session} {outcome : Outcome} {interruption : Interruption}

/-- The prompt goes on unless the sink refuses to be flushed. -/
theorem ask_eq (session : Session) :
    ask session = .ok session.state.sink.flushRefusal.isNone
      ⟨session.options,
        ⟨session.state.environment, (session.state.sink.write mark.toUTF8).2⟩, session.diagnostics⟩ := by
  obtain ⟨options, ⟨environment, sink⟩, diagnostics⟩ := session
  have hf : (sink.write mark.toUTF8).2.flushRefusal = sink.flushRefusal := by rw [Sink.write_eq]
  exact congrArg (fun refusal : Option String => EStateM.Result.ok refusal.isNone _) hf

theorem ask_of_accepting (ha : session.state.sink.Accepting) :
    ask session = .ok true (asked session) := by
  rw [ask_eq, ha.flushed, Sink.write_of_limit_none ha.unlimited]
  rfl

/-- Where the mark cannot be flushed no line is read, and nothing but the mark is written. -/
theorem dialogue_of_unflushed (hf : session.state.sink.flushRefusal ≠ none)
    (lines : List (List UInt8)) : dialogue rounds lines session = .ok {} ⟨session.options,
      ⟨session.state.environment, (session.state.sink.write mark.toUTF8).2⟩, session.diagnostics⟩ := by
  have ha := ask_eq session
  rw [Option.isNone_eq_false_iff.mpr (Option.isSome_iff_ne_none.mpr hf)] at ha
  cases lines <;> exact Action.bind_of_ok _ ha

theorem dialogue_nil (ha : session.state.sink.Accepting) :
    dialogue rounds [] session = .ok {} (asked session) := by
  rw [dialogue, Action.bind_of_ok _ (ask_of_accepting ha)]
  rfl

theorem respond_of_ok (hr : run rounds source session = .ok outcome next) :
    respond rounds source session = .ok (outcome, next.diagnostics.pending) next.drain.2 := by
  rw [respond, Action.bind_of_ok _ hr]
  rfl

theorem respond_of_error (hr : run rounds source session = .error interruption next) :
    respond rounds source session = .error interruption next := by
  rw [respond, Action.bind_of_error _ hr]

theorem answer_of_ok (ht : text? line = some source)
    (hr : run rounds source session = .ok outcome next) :
    answer rounds line session = .ok (some next.diagnostics.pending) next.drain.2 := by
  rw [answer, ht]
  exact Action.bind_of_ok _ (respond_of_ok hr)

theorem answer_of_error (ht : text? line = some source)
    (hr : run rounds source session = .error interruption next) :
    answer rounds line session = .error interruption next := by
  rw [answer, ht]
  exact Action.bind_of_error _ (respond_of_error hr)

/-- A line that is no text ends the dialogue. -/
theorem dialogue_of_no_text (ha : session.state.sink.Accepting) (ht : text? line = none) :
    dialogue rounds (line :: rest) session = .ok { logged := some unreadLine } (asked session) := by
  rw [dialogue, Action.bind_of_ok _ (ask_of_accepting ha), if_pos rfl, answer, ht]
  rfl

/-- The dialogue once a line is answered. -/
theorem dialogue_of_answer (ha : session.state.sink.Accepting) {diagnostics : List Diagnostic}
    (h : answer rounds line (asked session) = .ok (some diagnostics) next) :
    dialogue rounds (line :: rest) session =
      (dialogue rounds rest >>= fun later => pure (later.after diagnostics)) next := by
  rw [dialogue, Action.bind_of_ok _ (ask_of_accepting ha), if_pos rfl]
  exact Action.bind_of_ok _ h

/-- The dialogue once a line has been run. -/
theorem dialogue_cons (ha : session.state.sink.Accepting) (ht : text? line = some source)
    (hr : run rounds source (asked session) = .ok outcome next) :
    dialogue rounds (line :: rest) session =
      (dialogue rounds rest >>= fun later => pure (later.after next.diagnostics.pending))
        next.drain.2 :=
  dialogue_of_answer ha (answer_of_ok ht hr)

theorem dialogue_of_error (ha : session.state.sink.Accepting) (ht : text? line = some source)
    (hr : run rounds source (asked session) = .error interruption next) :
    dialogue rounds (line :: rest) session = .error interruption next := by
  rw [dialogue, Action.bind_of_ok _ (ask_of_accepting ha), if_pos rfl]
  exact Action.bind_of_error _ (answer_of_error ht hr)

/-- An answer does not depend on what was written before. -/
theorem answer_holding (hn : session.state.sink.limit = none) (rounds : Nat) (line : List UInt8) :
    ∃ chunk, ∀ bytes, answer rounds line (session.holding bytes) =
      mapState (holding (bytes ++ chunk)) (answer rounds line session) := by
  cases ht : text? line with
  | none =>
    refine ⟨.empty, fun bytes => ?_⟩
    rw [answer, ht, ByteArray.append_empty]
    rfl
  | some source =>
    obtain ⟨-, chunk, hadds⟩ := run_adds rounds source hn
    refine ⟨chunk, fun bytes => ?_⟩
    have hb := hadds bytes
    rcases hr : run rounds source session with ⟨outcome, next⟩ | ⟨i, next⟩ <;> rw [hr] at hb
    · rw [answer_of_ok ht hr, answer_of_ok ht hb]
      rfl
    · rw [answer_of_error ht hr, answer_of_error ht hb]
      rfl

/-- A turn of the dialogue: the line is answered on an empty sink, and what is in the sink then is
shown after the mark. -/
theorem dialogue_turn (ha : session.state.sink.Accepting) {diagnostics : List Diagnostic}
    (h : answer rounds line (session.holding .empty) = .ok (some diagnostics) next) :
    dialogue rounds (line :: rest) session =
      (dialogue rounds rest >>= fun later => pure (later.after diagnostics))
        (next.holding (session.state.sink.accepted ++ mark.toUTF8 ++ next.state.sink.accepted)) := by
  obtain ⟨chunk, hc⟩ := answer_holding ha.unlimited rounds line
  have he := hc .empty
  rw [h, ByteArray.empty_append] at he
  rcases hs : answer rounds line session with ⟨reply, last⟩ | ⟨i, last⟩ <;> rw [hs] at he <;> cases he
  refine dialogue_of_answer ha ?_
  rw [asked, hc, hs]
  rfl

end Steps

/-! ### A whole dialogue -/

/-- Bytes and then each part, with a mark before it. -/
def withMarks (bytes : ByteArray) (parts : List ByteArray) : ByteArray :=
  parts.foldl (fun bytes part => bytes ++ mark.toUTF8 ++ part) bytes

theorem holding_accepted (session : Session) :
    session.holding session.state.sink.accepted = session := rfl

theorem asked_holding (bytes : ByteArray) (session : Session) :
    asked (session.holding bytes) = session.holding (bytes ++ mark.toUTF8) := rfl

/-- A run adds what it adds, whatever the prompt has written before. -/
theorem accepted_of_run {rounds : Nat} {source : String} {session final : Session} {outcome : Outcome}
    {chunk : ByteArray}
    (hadds : ∀ bytes, run rounds source (session.holding bytes) =
      mapState (holding (bytes ++ chunk)) (run rounds source session))
    (hr : run rounds source session = .ok outcome final) :
    final.state.sink.accepted = session.state.sink.accepted ++ chunk := by
  have hs := hadds session.state.sink.accepted
  rw [holding_accepted, hr] at hs
  injection hs with _ hf
  exact congrArg (fun s : Session => s.state.sink.accepted) hf

/-- After a mark a line is run as it is without, and it adds the same. -/
theorem exists_part {session : Session} (hn : session.state.sink.limit = none) (rounds : Nat)
    (source : String) :
    ∃ part : ByteArray,
      (∀ bytes, run rounds source (asked (session.holding bytes)) =
        mapState (holding (bytes ++ mark.toUTF8 ++ part)) (run rounds source session)) ∧
      ∀ outcome final, run rounds source session = .ok outcome final →
        final.state.sink.accepted = session.state.sink.accepted ++ part := by
  obtain ⟨-, part, hadds⟩ := run_adds rounds source hn
  refine ⟨part, fun bytes => ?_, fun outcome final => accepted_of_run hadds⟩
  rw [asked_holding, hadds]

/-- From the session, whatever is written already, a dialogue over the lines comes to what the
run of its last line comes to. The run has written the parts, and the dialogue the parts with the
marks. -/
structure Ends (rounds : Nat) (lines : List (List UInt8)) (session : Session)
    (parts : List ByteArray) (result : EStateM.Result Interruption Session Outcome) : Prop where
  plain : ∀ outcome final, result = .ok outcome final →
    final.state.sink.accepted = parts.foldl (· ++ ·) session.state.sink.accepted
  marked : ∀ outcome final, result = .ok outcome final → ∀ bytes,
    dialogue rounds lines (session.holding bytes) =
      .ok { diagnostics := final.diagnostics.pending }
        (final.drain.2.holding (withMarks bytes parts ++ mark.toUTF8))
  interrupted : ∀ interruption final, result = .error interruption final → ∀ bytes,
    ∃ stopped, dialogue rounds lines (session.holding bytes) = .error interruption stopped

section Ends

variable {rounds : Nat} {line : List UInt8} {source : String} {session : Session}

/-- A dialogue over one line. -/
theorem ends_last (ha : session.state.sink.Accepting) (ht : text? line = some source) :
    ∃ part, Ends rounds [line] session [part] (run rounds source session) := by
  obtain ⟨part, hrun, hplain⟩ := exists_part ha.unlimited rounds source
  refine ⟨part, hplain, fun outcome final hr bytes => ?_, fun interruption final hr bytes => ?_⟩
  · have hasked := hrun bytes
    rw [hr] at hasked
    have hlast : (final.holding (bytes ++ mark.toUTF8 ++ part)).drain.2.state.sink.Accepting :=
      ((run_grows hr).accepting ha).holding _
    rw [dialogue_cons (ha.holding bytes) ht hasked, Action.bind_of_ok _ (dialogue_nil hlast)]
    show EStateM.Result.ok (Report.mk (_ ++ []) none) _ = _
    rw [List.append_nil]
    rfl
  · have hasked := hrun bytes
    rw [hr] at hasked
    exact ⟨_, dialogue_of_error (ha.holding bytes) ht hasked⟩

/-- A dialogue that is interrupted in its first line. -/
theorem ends_interrupted {rest : List (List UInt8)} {interruption : Interruption}
    {stopped : Session} (parts : List ByteArray) (ha : session.state.sink.Accepting)
    (ht : text? line = some source) (hr : run rounds source session = .error interruption stopped) :
    Ends rounds (line :: rest) session parts (.error interruption stopped) := by
  obtain ⟨part, hrun, -⟩ := exists_part ha.unlimited rounds source
  refine ⟨fun outcome final h => by simp at h, fun outcome final h => by simp at h, ?_⟩
  intro i final h bytes
  injection h with hi _
  subst hi
  have hasked := hrun bytes
  rw [hr] at hasked
  exact ⟨_, dialogue_of_error (ha.holding bytes) ht hasked⟩

/-- A dialogue that goes on after a line that succeeds. -/
theorem ends_cons {rest : List (List UInt8)} {next : Session}
    {parts : List ByteArray} {result : EStateM.Result Interruption Session Outcome}
    (ha : session.state.sink.Accepting) (ht : text? line = some source)
    (hr : run rounds source session = .ok .success next) (hd : next.diagnostics = {})
    (h : Ends rounds rest next parts result) :
    ∃ part, Ends rounds (line :: rest) session (part :: parts) result := by
  obtain ⟨part, hrun, hplain⟩ := exists_part ha.unlimited rounds source
  have hdrain : ∀ bytes, (next.holding bytes).drain.2 = next.holding bytes := by
    intro bytes
    unfold Session.drain holding Diagnostics.drain
    rw [hd]
  have hpending : ∀ bytes, (next.holding bytes).diagnostics.pending = [] := by
    intro bytes
    show next.diagnostics.pending = []
    rw [hd]
  have hdialogue : ∀ bytes, dialogue rounds (line :: rest) (session.holding bytes) =
      dialogue rounds rest (next.holding (bytes ++ mark.toUTF8 ++ part)) := by
    intro bytes
    have hasked := hrun bytes
    rw [hr] at hasked
    rw [dialogue_cons (ha.holding bytes) ht hasked, hdrain, hpending]
    cases hc : dialogue rounds rest (next.holding (bytes ++ mark.toUTF8 ++ part)) with
    | ok later last => exact Action.bind_of_ok _ hc
    | error interruption last => exact Action.bind_of_error _ hc
  refine ⟨part, fun outcome final hf => ?_, fun outcome final hf bytes => ?_,
    fun interruption final hf bytes => ?_⟩
  · rw [h.plain outcome final hf, hplain _ _ hr]
    rfl
  · rw [hdialogue, h.marked outcome final hf]
    rfl
  · rw [hdialogue]
    exact h.interrupted interruption final hf _

end Ends

theorem accepting_of_succeeds {rounds : Nat} : ∀ {sources : List String} {session after : Session},
    session.state.sink.Accepting → Succeeds rounds sources session after →
    after.state.sink.Accepting
  | [], session, _, ha, hs => by
    obtain rfl : session = _ := hs
    exact ha
  | _ :: _, _, _, ha, hs => by
    obtain ⟨next, hr, hs⟩ := hs
    exact accepting_of_succeeds ((run_grows hr).accepting ha) hs

/-- A dialogue over lines that succeed, and what it goes on with. -/
theorem ends_of_succeeds {rounds : Nat} {tail : List (List UInt8)} {after : Session}
    {parts : List ByteArray} {result : EStateM.Result Interruption Session Outcome}
    (h : Ends rounds tail after parts result) :
    ∀ {sources : List String} {front : List (List UInt8)} {session : Session},
      session.options = {} → session.state.sink.Accepting →
      front.map text? = sources.map some → (∀ source ∈ sources, Correct source) →
      Succeeds rounds sources session after →
      ∃ whole : List ByteArray, whole.length = sources.length + parts.length ∧
        Ends rounds (front ++ tail) session whole result
  | [], front, session, _, _, ht, _, hs => by
    obtain rfl : session = after := hs
    obtain rfl : front = [] := List.map_eq_nil_iff.mp ht
    exact ⟨parts, by simp, h⟩
  | source :: rest, front, session, ho, ha, ht, hc, hs => by
    obtain ⟨next, hr, hs⟩ := hs
    obtain ⟨line, lines, rfl, htext, hrest⟩ := List.map_eq_cons_iff.mp ht
    obtain ⟨hsource, hsources⟩ := List.forall_mem_cons.mp hc
    have hnext := (run_grows hr).accepting ha
    obtain ⟨st, _, rfl⟩ := (run_success_iff ho hsource).mp hr
    obtain ⟨whole, hlength, hw⟩ := ends_of_succeeds h rfl hnext hrest hsources hs
    obtain ⟨part, hp⟩ := ends_cons ha htext hr rfl hw
    have hl : (part :: whole).length = (source :: rest).length + parts.length := by
      simp only [List.length_cons]
      omega
    exact ⟨part :: whole, hl, hp⟩

end Prompt
end Lox
