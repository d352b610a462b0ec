/-
# What the runs of a session add

Sources are run one after the other in a session, and the messages are left on
record. What was pending before a run stays in front of what the run adds, or
is forgotten with the rest, and nothing else depends on it. So a session the
messages of which are taken after every run answers each source as one of
which they are not.

Key definitions: `Session.recalling`, `Reply`, `Session.Replies`.
Key theorems: `Session.run_drain`, `Session.run_drain_holding`, `Session.exists_reply`.
-/
import Lox.Proofs.Histories
import Lox.Proofs.Lines.Prompted

namespace Lox

/-! ### Messages from before -/

namespace Diagnostics

/-- The record with messages that were pending before. -/
def after (before : List Diagnostic) (ds : Diagnostics) : Diagnostics :=
  { ds with pending := before ++ ds.pending }

theorem record_after (before : List Diagnostic) (ds : Diagnostics) (d : Diagnostic) :
    (ds.after before).record d = (ds.record d).after before := by
  unfold after record
  rw [List.append_assoc]

theorem recordAll_after (before : List Diagnostic) : ∀ (new : List Diagnostic) (ds : Diagnostics),
    (ds.after before).recordAll new = (ds.recordAll new).after before
  | [], _ => rfl
  | d :: new, ds => by
    show ((ds.after before).record d).recordAll new = _
    rw [record_after, recordAll_after before new]
    rfl

end Diagnostics

namespace Session

/-- The session with messages that were pending before. -/
def recalling (before : List Diagnostic) (session : Session) : Session :=
  { session with diagnostics := session.diagnostics.after before }

/-- What is pending from before when a run starts. -/
def kept (session : Session) : List Diagnostic :=
  (opening session.options session.diagnostics).pending

theorem kept_new (options : Options) (sink : Sink) : (new options sink).kept = [] := by
  unfold kept opening
  split <;> rfl

theorem opening_drain (session : Session) :
    opening session.options session.diagnostics =
      (opening session.options session.drain.2.diagnostics).after session.kept := by
  unfold kept opening
  split
  · show _ = Diagnostics.mk (_ ++ []) _ _
    rw [List.append_nil]
    rfl
  · rfl

theorem checked_drain (session : Session) (source : String) :
    session.checked source = (session.drain.2.checked source).after session.kept := by
  rw [checked, opening_drain, Diagnostics.recordAll_after]
  rfl

/-- Whether the messages are taken before a run makes no difference to what it comes to. -/
theorem run_drain (rounds : Nat) (source : String) (session : Session) :
    run rounds source session =
      mapState (recalling session.kept) (run rounds source session.drain.2) := by
  have hl : session.drain.2.listed source = session.listed source := rfl
  rw [run_eq, run_eq, checked_drain, hl]
  by_cases he : (session.drain.2.checked source).hadError = true
  · rw [if_pos he, if_pos (by exact he)]
    rfl
  · rw [if_neg he, if_neg (by exact he)]
    rcases interpret rounds (program source) (session.listed source) with
      ⟨⟨⟩, st⟩ | ⟨f | m | _, st⟩
    · rfl
    · exact congrArg
        (fun ds => EStateM.Result.ok Outcome.runtimeError (⟨session.options, st, ds⟩ : Session))
        (Diagnostics.record_after session.kept (session.drain.2.checked source) f.diagnostic)
    · rfl
    · rfl

end Session

/-! ### Replies -/

/-- What a run has written, and the messages it has added. -/
structure Reply where
  output : ByteArray
  diagnostics : List Diagnostic

namespace Session

/-- The session replies to the sources, run one after the other. A reply is what is new in the sink
and on record after a run. -/
inductive Replies (rounds : Nat) : Session → List String → List Reply → Session → Prop
  | nil (session : Session) : Replies rounds session [] [] session
  | cons {session next last : Session} {source : String} {sources : List String}
      {outcome : Outcome} {reply : Reply} {replies : List Reply}
      (hr : run rounds source session = .ok outcome next)
      (ho : next.state.sink.accepted = session.state.sink.accepted ++ reply.output)
      (hd : next.diagnostics.pending =
        (opening session.options session.diagnostics).pending ++ reply.diagnostics)
      (h : Replies rounds next sources replies last) :
      Replies rounds session (source :: sources) (reply :: replies) last

section Reply

variable {rounds : Nat} {source : String} {session next : Session} {outcome : Outcome}

theorem run_drain_of_ok (hr : run rounds source session = .ok outcome next) :
    ∃ drained, run rounds source session.drain.2 = .ok outcome drained ∧
      next = drained.recalling session.kept := by
  rw [run_drain] at hr
  rcases hd : run rounds source session.drain.2 with ⟨o, drained⟩ | ⟨i, drained⟩
  · rw [hd] at hr
    injection hr with ho hn
    exact ⟨drained, by rw [ho], hn.symm⟩
  · rw [hd] at hr
    cases hr

/-- Where the messages are taken before a run and something else is in the sink, the run adds what
is its reply. -/
theorem run_drain_holding {reply : Reply} (hn : session.state.sink.limit = none)
    (hr : run rounds source session = .ok outcome next)
    (ho : next.state.sink.accepted = session.state.sink.accepted ++ reply.output)
    (hd : next.diagnostics.pending = session.kept ++ reply.diagnostics) (bytes : ByteArray) :
    ∃ after, run rounds source (session.drain.2.holding bytes) = .ok outcome after ∧
      after.diagnostics.pending = reply.diagnostics ∧
      after.drain.2 = next.drain.2.holding (bytes ++ reply.output) := by
  obtain ⟨drained, hdrained, rfl⟩ := run_drain_of_ok hr
  have hnd : session.drain.2.state.sink.limit = none := hn
  obtain ⟨-, chunk, hadds⟩ := run_adds rounds source hnd
  have hchunk : chunk = reply.output := by
    have ha := Prompt.accepted_of_run hadds hdrained
    exact (ByteArray.append_right_inj _).mp (ha.symm.trans ho)
  subst hchunk
  refine ⟨drained.holding (bytes ++ reply.output), ?_, List.append_cancel_left hd, rfl⟩
  rw [hadds, hdrained]
  rfl

theorem run_drain_holding_of_error {interruption : Interruption} {stopped : Session}
    (hn : session.state.sink.limit = none)
    (hr : run rounds source session = .error interruption stopped) (bytes : ByteArray) :
    ∃ after, run rounds source (session.drain.2.holding bytes) = .error interruption after := by
  have hnd : session.drain.2.state.sink.limit = none := hn
  obtain ⟨-, chunk, hadds⟩ := run_adds rounds source hnd
  rw [run_drain] at hr
  rcases hd : run rounds source session.drain.2 with ⟨o, drained⟩ | ⟨i, drained⟩
  · rw [hd] at hr
    cases hr
  · rw [hd] at hr
    cases hr
    exact ⟨drained.holding (bytes ++ chunk), by rw [hadds, hd]; rfl⟩

/-- Every run has a reply. -/
theorem exists_reply (hn : session.state.sink.limit = none)
    (hr : run rounds source session = .ok outcome next) :
    ∃ reply : Reply, next.state.sink.accepted = session.state.sink.accepted ++ reply.output ∧
      next.diagnostics.pending = session.kept ++ reply.diagnostics := by
  obtain ⟨-, chunk, hadds⟩ := run_adds rounds source hn
  obtain ⟨drained, -, rfl⟩ := run_drain_of_ok hr
  exact ⟨⟨chunk, drained.diagnostics.pending⟩, Prompt.accepted_of_run hadds hr, rfl⟩

theorem replies_one {sink : Sink} {options : Options} {reply : Reply} {last : Session} :
    Replies rounds (new options sink) [source] [reply] last ↔
      ∃ outcome, run rounds source (new options sink) = .ok outcome last ∧
        last.state.sink.accepted = sink.accepted ++ reply.output ∧
        last.diagnostics.pending = reply.diagnostics := by
  have hk := kept_new options sink
  constructor
  · intro h
    cases h with
    | cons hr ho hd h =>
      cases h with
      | nil => exact ⟨_, hr, ho, by rw [hd]; exact congrArg (· ++ reply.diagnostics) hk⟩
  · rintro ⟨outcome, hr, ho, hd⟩
    refine .cons hr ho ?_ (.nil last)
    rw [hd]
    exact (congrArg (· ++ reply.diagnostics) hk).symm

end Reply

end Session
end Lox
