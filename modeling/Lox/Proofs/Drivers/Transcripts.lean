/-
# Transcripts of sessions

The prompt cuts what it reads at newlines and comes to what one session comes
to in which the lines are run one after the other: the outputs with a mark
before each and one at the end, and every message once. The first line that
is no text ends the dialogue. A script is one run, and its exit code says
whether the text is wrong or the program fails; what is no text is not run.
The logger may do what it likes with what could not be read, after the
messages; if it is off, they are all that is on standard error.

Key definitions: `Prompt.Cut`, `Script.Exits`.
Key theorems: `Prompt.cut_lines`, `Prompt.Cut.eq_lines`, `Prompt.exists_sources`,
`Prompt.dialogue_iff`, `messageLines_eq`, `Script.exits_of_run`, `transcripts_follow_session`.
-/
import Lox.Invocation
import Lox.Proofs.Drivers.Replies
import Lox.Proofs.Lines.Texts
import Lox.Proofs.Records

namespace Lox

/-! ### Messages -/

/-- Messages on lines of their own, one after the other. -/
theorem messageLines_eq (ds : List Diagnostic) :
    messageLines ds = (String.join (ds.map fun d => d.message ++ "\n")).toUTF8 := by
  have hfold : ∀ (ds : List Diagnostic) (bytes : ByteArray),
      ds.foldl (fun bytes d => bytes ++ (d.message ++ "\n").toUTF8) bytes =
        bytes ++ (String.join (ds.map fun d => d.message ++ "\n")).toUTF8 := by
    intro ds
    induction ds with
    | nil =>
      intro bytes
      exact ByteArray.append_empty.symm
    | cons d rest ih =>
      intro bytes
      rw [List.foldl_cons, ih, List.map_cons, String.join_cons, ByteArray.append_assoc]
      exact congrArg (bytes ++ ·) String.toByteArray_append.symm
  rw [messageLines, hfold, ByteArray.empty_append]

/-! ### Bytes of texts -/

theorem fromUTF8?_toUTF8 (source : String) : String.fromUTF8? source.toUTF8 = some source := by
  rw [String.fromUTF8?, String.toUTF8_eq_toByteArray, dif_pos source.isValidUTF8]
  rfl

theorem toUTF8_of_fromUTF8? {bytes : ByteArray} {source : String}
    (h : String.fromUTF8? bytes = some source) : source.toUTF8 = bytes := by
  rw [String.fromUTF8?] at h
  split at h
  · cases h
    rfl
  · cases h

theorem toUTF8_ne_of_fromUTF8? {bytes : ByteArray} (h : String.fromUTF8? bytes = none)
    (source : String) : source.toUTF8 ≠ bytes := by
  rintro rfl
  rw [fromUTF8?_toUTF8] at h
  cases h

/-- The bytes of a text. -/
def utf8 (source : String) : List UInt8 := source.toUTF8.data.toList

namespace Prompt

theorem text?_utf8 (source : String) : text? (utf8 source) = some source :=
  fromUTF8?_toUTF8 source

theorem utf8_of_text? {line : List UInt8} {source : String} (h : text? line = some source) :
    utf8 source = line := by
  unfold utf8
  rw [toUTF8_of_fromUTF8? h]

theorem utf8_ne_of_text? {line : List UInt8} (h : text? line = none) (source : String) :
    utf8 source ≠ line := by
  rintro rfl
  rw [text?_utf8] at h
  cases h

/-! ### Lines -/

/-- Bytes cut into lines. Each ends at its only newline, but the last may have none. -/
inductive Cut : List UInt8 → List (List UInt8) → Prop
  | nil : Cut [] []
  | last {line : List UInt8} (hne : line ≠ []) (h : 10 ∉ line) : Cut line [line]
  | cons {line bytes : List UInt8} {lines : List (List UInt8)} (h : 10 ∉ line)
      (hc : Cut bytes lines) : Cut (line ++ 10 :: bytes) ((line ++ [10]) :: lines)

theorem Cut.onFirst {b : UInt8} (hb : b ≠ 10) {bytes : List UInt8} {lines : List (List UInt8)}
    (h : Cut bytes lines) : Cut (b :: bytes) (onFirst [b] lines) := by
  have hn : ∀ {line : List UInt8}, 10 ∉ line → 10 ∉ b :: line := fun hl hm =>
    (List.mem_cons.mp hm).elim (fun he => hb he.symm) hl
  cases h with
  | nil => exact .last (List.cons_ne_nil _ _) (hn List.not_mem_nil)
  | last _ hl => exact .last (List.cons_ne_nil _ _) (hn hl)
  | cons hl hc => exact .cons (hn hl) hc

theorem cut_lines : ∀ bytes : List UInt8, Cut bytes (lines bytes)
  | [] => .nil
  | b :: rest => by
    by_cases hb : b = 10
    · subst hb
      rw [lines_newline]
      exact Cut.cons List.not_mem_nil (cut_lines rest)
    · rw [lines_cons hb]
      exact (cut_lines rest).onFirst hb

/-- There is one way to cut. -/
theorem Cut.eq_lines {bytes : List UInt8} {cut : List (List UInt8)} (h : Cut bytes cut) :
    lines bytes = cut := by
  have hne : ∀ {line : List UInt8}, 10 ∉ line → ∀ b ∈ line, b ≠ 10 := fun hl b hm he =>
    hl (he ▸ hm)
  induction h with
  | nil => rfl
  | @last line hl hn =>
    have ha := lines_append hl (hne hn) []
    rw [List.append_nil] at ha
    exact ha
  | @cons line bytes cut hn _ ih =>
    rw [← ih]
    by_cases hl : line = []
    · rw [hl]
      exact lines_newline bytes
    · rw [lines_append hl (hne hn), lines_newline]
      rfl

/-- The lines in front of the first one that is no text. -/
theorem exists_sources : ∀ lines : List (List UInt8), ∃ (sources : List String)
    (rest : List (List UInt8)), lines = sources.map utf8 ++ rest ∧
      ∀ line ∈ rest.head?, ∀ source : String, utf8 source ≠ line
  | [] => ⟨[], [], rfl, fun _ h => by cases h⟩
  | line :: more => by
    cases ht : text? line with
    | none =>
      refine ⟨[], line :: more, rfl, fun first hf => ?_⟩
      cases hf
      exact utf8_ne_of_text? ht
    | some source =>
      obtain ⟨sources, rest, hl, hrest⟩ := exists_sources more
      exact ⟨source :: sources, rest, by rw [List.map_cons, utf8_of_text? ht, hl]; rfl, hrest⟩

/-! ### Dialogues -/

/-- What is logged of lines of which the first is no text. -/
def logged : List (List UInt8) → Option String
  | [] => none
  | _ :: _ => some unreadLine

/-- A dialogue that has nothing to run. -/
theorem dialogue_of_nothing {rounds : Nat} {session : Session} {rest : List (List UInt8)}
    (ha : session.state.sink.Accepting)
    (hrest : ∀ line ∈ rest.head?, ∀ source : String, utf8 source ≠ line) :
    dialogue rounds rest session = .ok { logged := logged rest } (asked session) := by
  cases rest with
  | nil => exact dialogue_nil ha
  | cons line more =>
    have ht : text? line = none := by
      cases ht : text? line with
      | none => rfl
      | some source => exact absurd (utf8_of_text? ht) (hrest line rfl source)
    exact dialogue_of_no_text ha ht

section Dialogue

variable {rounds : Nat} {source : String} {session next : Session} {outcome : Outcome}

/-- A dialogue goes on after a line with what the session replies to it. -/
theorem dialogue_reply {reply : Reply} (ha : session.state.sink.Accepting)
    (hr : Session.run rounds source session = .ok outcome next)
    (ho : next.state.sink.accepted = session.state.sink.accepted ++ reply.output)
    (hd : next.diagnostics.pending = session.kept ++ reply.diagnostics)
    (later : List (List UInt8)) (bytes : ByteArray) :
    dialogue rounds (utf8 source :: later) (session.drain.2.holding bytes) =
      (dialogue rounds later >>= fun report => pure (report.after reply.diagnostics))
        (next.drain.2.holding (bytes ++ mark.toUTF8 ++ reply.output)) := by
  have hb : (session.drain.2.holding bytes).state.sink.Accepting := ha.holding bytes
  obtain ⟨after, hafter, hp, hdrain⟩ :=
    Session.run_drain_holding ha.unlimited hr ho hd (bytes ++ mark.toUTF8)
  rw [dialogue_cons hb (text?_utf8 source) hafter, hp, hdrain]

/-- A dialogue is interrupted where the session is. -/
theorem dialogue_interrupted {interruption : Interruption} {stopped : Session}
    (ha : session.state.sink.Accepting)
    (hr : Session.run rounds source session = .error interruption stopped)
    (later : List (List UInt8)) (bytes : ByteArray) :
    ∃ after, dialogue rounds (utf8 source :: later) (session.drain.2.holding bytes) =
      .error interruption after := by
  have hb : (session.drain.2.holding bytes).state.sink.Accepting := ha.holding bytes
  obtain ⟨after, hafter⟩ :=
    Session.run_drain_holding_of_error ha.unlimited hr (bytes ++ mark.toUTF8)
  exact ⟨after, dialogue_of_error hb (text?_utf8 source) hafter⟩

/-- A dialogue ends if the runs of its lines in one session do, and then it has their replies. -/
theorem dialogue_iff {rest : List (List UInt8)}
    (hrest : ∀ line ∈ rest.head?, ∀ source : String, utf8 source ≠ line) :
    ∀ {sources : List String} {session : Session}, session.state.sink.Accepting →
      ∀ {bytes : ByteArray} {report : Report} {final : Session},
        dialogue rounds (sources.map utf8 ++ rest) (session.drain.2.holding bytes) =
            .ok report final ↔
          ∃ replies last, Session.Replies rounds session sources replies last ∧
            report = ⟨replies.flatMap Reply.diagnostics, logged rest⟩ ∧
            final = last.drain.2.holding
              (withMarks bytes (replies.map Reply.output) ++ mark.toUTF8)
  | [], session, ha, bytes, report, final => by
    have hb : (session.drain.2.holding bytes).state.sink.Accepting := ha.holding bytes
    have hd : dialogue rounds rest (session.drain.2.holding bytes) =
        .ok { logged := logged rest } (session.drain.2.holding (bytes ++ mark.toUTF8)) :=
      dialogue_of_nothing hb hrest
    rw [List.map_nil, List.nil_append, hd]
    constructor
    · intro h
      cases h
      exact ⟨[], session, .nil session, rfl, rfl⟩
    · rintro ⟨replies, last, h, rfl, rfl⟩
      cases h
      rfl
  | source :: sources, session, ha, bytes, report, final => by
    rw [List.map_cons, List.cons_append]
    rcases hr : Session.run rounds source session with ⟨outcome, next⟩ | ⟨i, stopped⟩
    · have hnext := (Session.run_grows hr).accepting ha
      constructor
      · intro h
        obtain ⟨reply, ho, hd⟩ := Session.exists_reply ha.unlimited hr
        rw [dialogue_reply ha hr ho hd] at h
        rcases hlater : dialogue rounds (sources.map utf8 ++ rest)
            (next.drain.2.holding (bytes ++ mark.toUTF8 ++ reply.output)) with
          ⟨later, last⟩ | ⟨i, stopped⟩
        · rw [Action.bind_of_ok _ hlater] at h
          cases h
          obtain ⟨replies, last, hreplies, rfl, rfl⟩ := (dialogue_iff hrest hnext).mp hlater
          exact ⟨reply :: replies, last, .cons hr ho hd hreplies, rfl, rfl⟩
        · rw [Action.bind_of_error _ hlater] at h
          cases h
      · rintro ⟨replies, last, h, rfl, rfl⟩
        cases h with
        | cons hr' ho hd h =>
          rw [hr] at hr'
          cases hr'
          rw [dialogue_reply ha hr ho hd,
            Action.bind_of_ok _ ((dialogue_iff hrest hnext).mpr ⟨_, last, h, rfl, rfl⟩)]
          rfl
    · obtain ⟨after, hinterrupted⟩ :=
        dialogue_interrupted ha hr (sources.map utf8 ++ rest) bytes
      rw [hinterrupted]
      constructor
      · intro h
        cases h
      · rintro ⟨replies, last, h, -, -⟩
        cases h with
        | cons hr' _ _ _ =>
          rw [hr] at hr'
          cases hr'

end Dialogue

/-- A dialogue has the replies of one session, with the marks. -/
theorem transcript_iff (rounds : Nat) (options : Options) (log : Log) {input : ByteArray}
    {sources : List String} {rest : List (List UInt8)}
    (hl : lines input.data.toList = sources.map utf8 ++ rest)
    (hrest : ∀ line ∈ rest.head?, ∀ source : String, utf8 source ≠ line) (t : Transcript) :
    transcript rounds options input log = .ok t ↔
      ∃ replies last, Session.Replies rounds (.new options {}) sources replies last ∧
        t.output = withMarks .empty (replies.map Reply.output) ++ mark.toUTF8 ∧
        t.errors = Report.errors log ⟨replies.flatMap Reply.diagnostics, logged rest⟩ ∧
        t.exitCode = 0 := by
  have hiff := @dialogue_iff rounds rest hrest sources (.new options {}) ⟨rfl, rfl⟩ .empty
  have hstart : (Session.new options {}).drain.2.holding .empty = { options } := rfl
  rw [transcript, hl]
  rw [hstart] at hiff
  constructor
  · intro h
    rcases hd : dialogue rounds (sources.map utf8 ++ rest) { options } with
      ⟨report, final⟩ | ⟨i, stopped⟩
    · rw [hd] at h
      cases h
      obtain ⟨replies, last, hr, rfl, rfl⟩ := hiff.mp hd
      exact ⟨replies, last, hr, rfl, rfl, rfl⟩
    · rw [hd] at h
      cases h
  · rintro ⟨replies, last, hr, ho, he, hc⟩
    obtain ⟨output, errors, code⟩ := t
    obtain rfl : output = _ := ho
    obtain rfl : errors = _ := he
    obtain rfl : code = 0 := hc
    rw [hiff.mpr ⟨replies, last, hr, rfl, rfl⟩]
    rfl

end Prompt

/-! ### Scripts -/

namespace Session

section New

variable {options : Options} {source : String}

theorem checked_new : (new options {}).checked source =
    ({} : Diagnostics).recordAll (staticDiagnostics source) := by
  unfold checked opening
  split <;> rfl

theorem staticDiagnostics_eq_nil_iff : staticDiagnostics source = [] ↔
    ((new options {}).checked source).hadError = false := by
  rw [checked_new, Diagnostics.hadError_recordAll]
  constructor
  · intro h
    rw [h]
    rfl
  · intro h
    by_contra hne
    obtain ⟨d, hd⟩ := List.exists_mem_of_ne_nil _ hne
    have ha := List.any_eq_true.mpr ⟨d, hd, isStatic_of_mem_staticDiagnostics hd⟩
    rw [ha] at h
    cases h

end New

end Session

namespace Script

/-- The exit code of a script says that its text is wrong, that its program fails or that it
succeeds. -/
structure Exits (rounds : Nat) (options : Options) (source : String) (code : Nat) : Prop where
  wrong : code = 65 ↔ Session.staticDiagnostics source ≠ []
  fails : code = 70 ↔ Session.staticDiagnostics source = [] ∧ ∃ f last,
    interpret rounds (Session.program source) ((Session.new options {}).listed source) =
      .error (.failure f) last
  succeeds : code = 0 ↔ Session.staticDiagnostics source = [] ∧ ∃ last,
    interpret rounds (Session.program source) ((Session.new options {}).listed source) =
      .ok () last

section Exits

variable {rounds : Nat} {options : Options} {source name : String} {outcome : Outcome} {log : Log}

theorem exits_of_run {last : Session}
    (hr : Session.run rounds source (.new options {}) = .ok outcome last) :
    Exits rounds options source outcome.exitCode := by
  rcases Session.ends_of_run hr with ⟨he, rfl, -⟩ | ⟨he, failure, hi, ho, hn⟩
  · have hne : Session.staticDiagnostics source ≠ [] := by
      intro h
      rw [Session.staticDiagnostics_eq_nil_iff.mp h] at he
      cases he
    exact ⟨iff_of_true rfl hne, iff_of_false (by decide) fun h => hne h.1,
      iff_of_false (by decide) fun h => hne h.1⟩
  · have hnil := Session.staticDiagnostics_eq_nil_iff.mpr he
    have hd : last.diagnostics = ({} : Diagnostics).recordAll (failure.toList.map Failure.diagnostic) := by
      rw [hn, Session.settled, Session.checked_new, hnil]
      rfl
    rw [ho, hd]
    cases failure with
    | none =>
      refine ⟨iff_of_false (by decide) (by simp [hnil]), iff_of_false (by decide) ?_,
        iff_of_true rfl ⟨hnil, last.state, hi⟩⟩
      rintro ⟨-, f, st, hf⟩
      rw [hi] at hf
      cases hf
    | some f =>
      have hf : (({} : Diagnostics).recordAll
          ((some f).toList.map Failure.diagnostic)).hadRuntimeError = true := by
        cases f <;> rfl
      rw [if_pos hf]
      refine ⟨iff_of_false (by decide) (by simp [hnil]), iff_of_true rfl ⟨hnil, f, last.state, hi⟩,
        iff_of_false (by decide) ?_⟩
      rintro ⟨-, st, hs⟩
      rw [hi] at hs
      cases hs

/-- What a new session replies to its first run. -/
theorem replies_of_run {last : Session}
    (hr : Session.run rounds source (.new options {}) = .ok outcome last) :
    Session.Replies rounds (.new options {}) [source]
      [⟨last.state.sink.accepted, last.diagnostics.pending⟩] last :=
  Session.replies_one.mpr ⟨outcome, hr, ByteArray.empty_append.symm, rfl⟩

theorem Exits.eq_exitCode {code : Nat} (h : Exits rounds options source code)
    (ho : Exits rounds options source outcome.exitCode) : code = outcome.exitCode := by
  cases outcome with
  | success => exact h.succeeds.mpr (ho.succeeds.mp rfl)
  | staticError => exact h.wrong.mpr (ho.wrong.mp rfl)
  | runtimeError => exact h.fails.mpr (ho.fails.mp rfl)

theorem text_toUTF8 : text (.ok source.toUTF8) = .ok source := by
  simp only [text, fromUTF8?_toUTF8]

theorem transcript_of_ok {last : Session}
    (hr : Session.run rounds source (.new options {}) = .ok outcome last) :
    transcript rounds options name (.ok source.toUTF8) log = .ok
      ⟨last.state.sink.accepted, messageLines last.diagnostics.pending, outcome.exitCode⟩ := by
  have hrespond : respond rounds source { options } =
      .ok (outcome, last.diagnostics.pending) last.drain.2 := Prompt.respond_of_ok hr
  simp only [transcript, text_toUTF8, hrespond]
  rfl

theorem transcript_of_error {interruption : Interruption} {stopped : Session}
    (hr : Session.run rounds source (.new options {}) = .error interruption stopped) :
    transcript rounds options name (.ok source.toUTF8) log = .error interruption := by
  have hrespond : respond rounds source { options } = .error interruption stopped :=
    Prompt.respond_of_error hr
  simp only [transcript, text_toUTF8, hrespond]

/-- A script ends if its run in a new session does, and then it has the reply. -/
theorem transcript_iff (rounds : Nat) (options : Options) (name source : String) (log : Log)
    (t : Transcript) :
    transcript rounds options name (.ok source.toUTF8) log = .ok t ↔
      ∃ reply last, Session.Replies rounds (.new options {}) [source] [reply] last ∧
        t.output = reply.output ∧ t.errors = messageLines reply.diagnostics ∧
        Exits rounds options source t.exitCode := by
  constructor
  · intro h
    rcases hr : Session.run rounds source (.new options {}) with ⟨outcome, last⟩ | ⟨i, stopped⟩
    · rw [transcript_of_ok hr] at h
      cases h
      exact ⟨_, last, replies_of_run hr, rfl, rfl, exits_of_run hr⟩
    · rw [transcript_of_error hr] at h
      cases h
  · rintro ⟨reply, last, hreplies, ho, he, hc⟩
    obtain ⟨outcome, hr, hacc, hd⟩ := Session.replies_one.mp hreplies
    have hout : last.state.sink.accepted = t.output := by
      rw [hacc, ho]
      exact ByteArray.empty_append
    rw [transcript_of_ok hr, hout, hd, ← he, ← hc.eq_exitCode (exits_of_run hr)]

end Exits

/-- What is no text is not run. -/
theorem transcript_of_no_text {bytes : ByteArray} (h : ∀ source : String, source.toUTF8 ≠ bytes)
    (rounds : Nat) (options : Options) (name : String) (log : Log) :
    transcript rounds options name (.ok bytes) log =
      transcript rounds options name (.error .notText) log := by
  have hb : String.fromUTF8? bytes = none := by
    cases hb : String.fromUTF8? bytes with
    | none => rfl
    | some source => exact absurd (toUTF8_of_fromUTF8? hb) (h source)
  simp only [transcript, text, hb]

end Script

end Lox
