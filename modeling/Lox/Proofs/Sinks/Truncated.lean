/-
# Sinks with a limit

A sink with a limit keeps of the output what comes first. As long as the
output of a program fits, the program does what it does with a sink that
takes everything. When it does not fit, the program stops with the reason the
sink gives, and what the sink has then is the beginning of what would have
been written.

Key definitions: `Sink.truncated`, `State.truncated`, `Action.Truncates`.
Key theorems: `Sink.write_truncated`, `Action.Truncates.bind`, `interpret_truncates`.
-/
import Lox.Proofs.Sinks.Growing

namespace Lox

/-- A prefix as long as the whole is the whole. -/
theorem extract_of_size_le {bytes : ByteArray} {n : Nat} (h : bytes.size ≤ n) :
    bytes.extract 0 n = bytes := by
  have hw : (bytes.extract 0 bytes.size).extract 0 n = bytes.extract 0 bytes.size := by
    rw [ByteArray.extract_extract, Nat.zero_add, Nat.zero_add, Nat.min_eq_right h]
  rwa [ByteArray.extract_zero_size] at hw

/-- What comes after `n` bytes is not among the first `n`. -/
theorem extract_append_of_le {bytes : ByteArray} {n : Nat} (h : n ≤ bytes.size) (chunk : ByteArray) :
    (bytes ++ chunk).extract 0 n = bytes.extract 0 n := by
  have hz : chunk.extract (0 - bytes.size) (n - bytes.size) = .empty := by
    rw [ByteArray.extract_eq_empty_iff]
    omega
  rw [ByteArray.extract_append, hz, ByteArray.append_empty]

/-! ### Writing -/

/-- The sink as it would be, had it taken `limit` bytes and no more. -/
def Sink.truncated (limit : Nat) (sink : Sink) : Sink :=
  { sink with limit := some limit, accepted := sink.accepted.extract 0 limit }

/-- The state with a sink that has taken `limit` bytes and no more. -/
def State.truncated (limit : Nat) (st : State) : State := ⟨st.environment, st.sink.truncated limit⟩

namespace Sink

variable {sink later : Sink} {limit : Nat}

theorem size_truncated (limit : Nat) (sink : Sink) :
    (sink.truncated limit).accepted.size = min limit sink.accepted.size := by
  show (sink.accepted.extract 0 limit).size = _
  rw [ByteArray.size_extract, Nat.sub_zero]

/-- Beyond the limit it does not matter what the sink has. -/
theorem Grows.truncated_eq (h : sink.Grows later) (hl : limit ≤ sink.accepted.size) :
    later.truncated limit = sink.truncated limit := by
  obtain ⟨⟨chunk, rfl⟩, -⟩ := h
  unfold truncated
  rw [extract_append_of_le hl]

theorem room_truncated (limit n : Nat) (sink : Sink) :
    (sink.truncated limit).room n = min n (limit - sink.accepted.size) := by
  have hl : (sink.truncated limit).limit = some limit := rfl
  rw [room_of_limit hl, size_truncated]
  omega

/-- The sink with the limit keeps the beginning of what is written, refused or not. -/
theorem sink_write_truncated (hn : sink.limit = none) (limit : Nat) (bytes : ByteArray) :
    ((sink.truncated limit).write bytes).2 = (sink.write bytes).2.truncated limit := by
  have hb : bytes.extract 0 (min bytes.size (limit - sink.accepted.size)) =
      bytes.extract (0 - sink.accepted.size) (limit - sink.accepted.size) := by
    rw [Nat.zero_sub]
    by_cases h : bytes.size ≤ limit - sink.accepted.size
    · rw [Nat.min_eq_left h, ByteArray.extract_zero_size, extract_of_size_le h]
    · rw [Nat.min_eq_right (by omega)]
  rw [write_eq, room_truncated, hb, write_of_limit_none hn]
  unfold truncated
  rw [ByteArray.extract_append]

/-- A write is refused when the limit is passed with it. -/
theorem write_truncated (hn : sink.limit = none) (hl : sink.accepted.size ≤ limit)
    (bytes : ByteArray) : (sink.truncated limit).write bytes =
      (if sink.accepted.size + bytes.size ≤ limit then none else some sink.refusal,
        (sink.write bytes).2.truncated limit) := by
  have hs := sink_write_truncated hn limit bytes
  have hr := room_truncated limit bytes.size sink
  by_cases h : sink.accepted.size + bytes.size ≤ limit
  · have hroom : (sink.truncated limit).room bytes.size = bytes.size := by omega
    have hf : ((sink.truncated limit).write bytes).1 = none := by
      rw [write, if_pos hroom]
    rw [if_pos h, ← hs, ← hf]
  · have hroom : (sink.truncated limit).room bytes.size ≠ bytes.size := by omega
    have hf := (write_refused_iff (sink.truncated limit) bytes).mpr hroom
    rw [if_neg h, ← hs]
    exact Prod.ext hf rfl

theorem list_truncated (limit : Nat) : ∀ (lines : List String) {sink : Sink}, sink.limit = none →
    Session.list lines (sink.truncated limit) = (Session.list lines sink).truncated limit
  | [], _, _ => rfl
  | line :: rest, sink, hn => by
    have hw := sink_write_truncated hn limit (line ++ "\n").toUTF8
    have hl : (Output.writeLine sink line).2.limit = none := (grows_write sink _).limit_eq.trans hn
    show Session.list rest ((sink.truncated limit).write _).2 = _
    rw [hw]
    exact list_truncated limit rest hl

end Sink

/-! ### Programs -/

/-- The sink has no limit, and what it has taken would fit one with this limit. -/
structure State.Fits (limit : Nat) (st : State) : Prop where
  unlimited : st.sink.limit = none
  size_le : st.sink.accepted.size ≤ limit

/-- Where the output of `action` fits, the sink with the limit makes no difference; where not, it
stops the action for the reason it gives. -/
def Action.Truncates {α : Type} (limit : Nat) (action : Action State α) : Prop :=
  ∀ st : State, st.Fits limit →
    ((action.after st).sink.accepted.size ≤ limit ∧
      action (st.truncated limit) = mapState (State.truncated limit) (action st)) ∨
    (limit < (action.after st).sink.accepted.size ∧
      ∃ env, action (st.truncated limit) = .error (.failure (.output st.sink.refusal))
        ⟨env, (action.after st).sink.truncated limit⟩)

namespace Action

variable {limit : Nat}

theorem truncates_of_keeps {α : Type} {action : Action State α} (hk : action.Keeps State.sink)
    (hc : action.Commutes (State.truncated limit)) : action.Truncates limit := by
  intro st hf
  left
  rw [hk st]
  exact ⟨hf.size_le, hc st⟩

theorem Truncates.bind {α β : Type} {action : Action State α} {next : α → Action State β}
    (h : action.Truncates limit) (hg : action.Grows) (hn : ∀ a, (next a).Truncates limit)
    (hng : ∀ a, (next a).Grows) : Truncates limit (action >>= next) := by
  intro st hf
  have hgrows := hg st
  have hs := h st hf
  rcases ha : action st with ⟨a, mid⟩ | ⟨stop, mid⟩
  · rw [after_of_ok ha] at hs hgrows
    rw [after_bind_of_ok next ha, bind_of_ok next ha, ← hgrows.refusal_eq]
    rcases hs with ⟨hm, heq⟩ | ⟨hm, env, heq⟩
    · rw [ha] at heq
      rw [bind_of_ok next heq]
      exact hn a mid ⟨hgrows.limit_eq.trans hf.unlimited, hm⟩
    · -- the limit is passed already, and what comes after is lost
      have hlater := hng a mid
      have hsize := hlater.size_le
      right
      rw [bind_of_error next heq, hlater.truncated_eq (by omega), hgrows.refusal_eq]
      exact ⟨by omega, env, rfl⟩
  · rw [after_of_error ha] at hs
    rw [after_bind_of_error next ha, bind_of_error next ha]
    rcases hs with ⟨hm, heq⟩ | ⟨hm, env, heq⟩
    · rw [ha] at heq
      rw [bind_of_error next heq]
      exact .inl ⟨hm, rfl⟩
    · rw [bind_of_error next heq]
      exact .inr ⟨hm, env, rfl⟩

/-- An action that is done in spite of the limit is done alike without. -/
theorem Truncates.of_ok {α : Type} {action : Action State α} {st other : State} {a : α}
    (h : action.Truncates limit) (hg : action.Grows) (hf : st.Fits limit)
    (ha : action (st.truncated limit) = .ok a other) :
    ∃ mid, action st = .ok a mid ∧ other = mid.truncated limit ∧ mid.Fits limit := by
  have hl := (hg st).limit_eq.trans hf.unlimited
  rcases h st hf with ⟨hm, heq⟩ | ⟨_, _, heq⟩
  · rw [ha] at heq
    rcases hs : action st with ⟨b, mid⟩ | ⟨stop, mid⟩
    · rw [hs] at heq
      rw [after_of_ok hs] at hm hl
      injection heq with hb hmid
      rw [← hb]
      exact ⟨mid, rfl, hmid, hl, hm⟩
    · rw [hs] at heq
      cases heq
  · rw [ha] at heq
    cases heq

end Action

variable {limit : Nat}

theorem writeLine_truncates (limit : Nat) (line : String) : (writeLine line).Truncates limit := by
  intro st ⟨hn, hl⟩
  have hw := writeLine_of_limit_none hn line
  have hsize : ((writeLine line).after st).sink.accepted.size =
      st.sink.accepted.size + (line ++ "\n").toUTF8.size := by
    rw [Action.after_of_ok hw]
    exact ByteArray.size_append
  have ht : Output.writeLine (st.truncated limit).sink line = _ :=
    Sink.write_truncated hn hl (line ++ "\n").toUTF8
  rw [Sink.write_of_limit_none hn] at ht
  rw [hsize, Action.after_of_ok hw, hw]
  by_cases hf : st.sink.accepted.size + (line ++ "\n").toUTF8.size ≤ limit
  · rw [if_pos hf] at ht
    exact .inl ⟨hf, writeLine_of_taken ht⟩
  · rw [if_neg hf] at ht
    exact .inr ⟨by omega, st.environment, writeLine_of_refused ht⟩

theorem inScope_truncates {body : Action State Unit} (h : body.Truncates limit) :
    (inScope body).Truncates limit := by
  intro st ⟨hn, hl⟩
  have hs := h ⟨st.environment.enter, st.sink⟩ ⟨hn, hl⟩
  have ht : inScope body (st.truncated limit) = _ := inScope_eq body (st.truncated limit)
  unfold Action.after at hs ⊢
  rw [ht, inScope_eq]
  rcases hs with ⟨hm, heq⟩ | ⟨hm, env, heq⟩
  · left
    have hb : body ⟨(st.truncated limit).environment.enter, (st.truncated limit).sink⟩ = _ := heq
    rw [hb]
    rcases hr : body ⟨st.environment.enter, st.sink⟩ with ⟨⟨⟩, last⟩ | ⟨stop, last⟩ <;>
      rw [hr] at hm <;> exact ⟨hm, rfl⟩
  · right
    have hb : body ⟨(st.truncated limit).environment.enter, (st.truncated limit).sink⟩ = _ := heq
    rw [hb]
    rcases hr : body ⟨st.environment.enter, st.sink⟩ with ⟨⟨⟩, last⟩ | ⟨stop, last⟩ <;>
      rw [hr] at hm <;> exact ⟨hm, env.leave, rfl⟩

theorem truncates_closed (limit : Nat) :
    Action.Closed fun less _ => less.Grows ∧ less.Truncates limit where
  value a := ⟨grows_closed.value a, Action.truncates_of_keeps (fun _ => rfl) (Action.commutes_pure a)⟩
  exhausted more := ⟨grows_closed.exhausted more,
    Action.truncates_of_keeps (fun _ => rfl) (Action.commutes_throw .outOfRounds)⟩
  andThen h hn := ⟨h.1.bind fun a => (hn a).1,
    h.2.bind h.1 (fun a => (hn a).2) fun a => (hn a).1⟩
  evaluating action := ⟨grows_closed.evaluating action,
    Action.truncates_of_keeps (onVariables_keeps_sink action)
      (onVariables_commutes action (Sink.truncated limit))⟩
  defining name v := ⟨grows_closed.defining name v,
    Action.truncates_of_keeps (fun _ => rfl) fun _ => rfl⟩
  writing line := ⟨writeLine_grows line, writeLine_truncates limit line⟩
  flushing := ⟨grows_closed.flushing, Action.truncates_of_keeps (flush_keeps State.sink)
    (flush_commutes (f := Sink.truncated limit) fun _ => rfl)⟩
  enclosing h := ⟨inScope_grows h.1, inScope_truncates h.2⟩

theorem interpret_truncates (rounds : Nat) (program : Declarations) (limit : Nat) :
    (interpret rounds program).Truncates limit :=
  ((truncates_closed limit).interpret (Nat.le_refl rounds) program).2

/-- Whatever it does to the program, a sink with a limit keeps the beginning of the output. -/
theorem sink_interpret_truncated (rounds : Nat) (program : Declarations) (limit : Nat) {st : State}
    (hn : st.sink.limit = none) : ((interpret rounds program).after (st.truncated limit)).sink =
      ((interpret rounds program).after st).sink.truncated limit := by
  by_cases hl : st.sink.accepted.size ≤ limit
  · rcases interpret_truncates rounds program limit st ⟨hn, hl⟩ with ⟨-, heq⟩ | ⟨-, env, heq⟩
    · unfold Action.after
      rw [heq]
      cases interpret rounds program st <;> rfl
    · rw [Action.after_of_error heq]
  · have hw := interpret_grows rounds program st
    have hp := interpret_grows rounds program (st.truncated limit)
    have hfull : limit ≤ (st.truncated limit).sink.accepted.size := by
      have hs := Sink.size_truncated limit st.sink
      show limit ≤ (st.sink.truncated limit).accepted.size
      omega
    rw [hp.eq_of_full rfl hfull, hw.truncated_eq (by omega)]
    rfl

end Lox
