/-
# Sinks only grow

Whatever a program or a session does, the bytes a sink has taken stay where
they are, others come after them, and none comes beyond the limit. A sink
that is full stays as it is.

Key definitions: `Sink.Grows`, `Action.Grows`.
Key theorems: `Sink.Grows.trans`, `Sink.grows_write`, `interpret_grows`, `Session.run_grows`.
-/
import Lox.Proofs.Histories
import Lox.Proofs.Output

namespace Lox

/-- What a sink may become: it has taken more, but nothing more beyond its limit. -/
structure Sink.Grows (sink later : Sink) : Prop where
  extended : ∃ chunk, later = { sink with accepted := sink.accepted ++ chunk }
  limited : ∀ limit, sink.limit = some limit → later.accepted.size ≤ max limit sink.accepted.size

namespace Sink

variable {sink mid later : Sink}

namespace Grows

theorem refl (sink : Sink) : sink.Grows sink where
  extended := ⟨.empty, by rw [ByteArray.append_empty]⟩
  limited _ _ := Nat.le_max_right _ _

theorem limit_eq (h : sink.Grows later) : later.limit = sink.limit := by
  obtain ⟨⟨_, rfl⟩, _⟩ := h
  rfl

theorem refusal_eq (h : sink.Grows later) : later.refusal = sink.refusal := by
  obtain ⟨⟨_, rfl⟩, _⟩ := h
  rfl

theorem size_le (h : sink.Grows later) : sink.accepted.size ≤ later.accepted.size := by
  obtain ⟨⟨chunk, rfl⟩, _⟩ := h
  show sink.accepted.size ≤ (sink.accepted ++ chunk).size
  rw [ByteArray.size_append]
  omega

theorem trans (h : sink.Grows mid) (h' : mid.Grows later) : sink.Grows later := by
  have hl := h.limit_eq
  obtain ⟨⟨chunk, rfl⟩, hm⟩ := h
  obtain ⟨⟨chunk', rfl⟩, hm'⟩ := h'
  refine ⟨⟨chunk ++ chunk', ?_⟩, fun limit hs => ?_⟩
  · rw [← ByteArray.append_assoc]
  · have hfirst := hm limit hs
    have hsecond := hm' limit (hl.trans hs)
    omega

/-- A full sink stays as it is. -/
theorem eq_of_full (h : sink.Grows later) {limit : Nat} (hl : sink.limit = some limit)
    (hf : limit ≤ sink.accepted.size) : later = sink := by
  have hm := h.limited limit hl
  obtain ⟨⟨chunk, rfl⟩, _⟩ := h
  have hz : chunk = .empty := by
    simp only [ByteArray.size_append] at hm
    rw [← ByteArray.size_eq_zero_iff]
    omega
  rw [hz, ByteArray.append_empty]

end Grows

theorem room_of_limit {limit : Nat} (hl : sink.limit = some limit) (n : Nat) :
    sink.room n = min n (limit - sink.accepted.size) := by
  unfold room
  rw [hl]

theorem grows_write (sink : Sink) (bytes : ByteArray) : sink.Grows (sink.write bytes).2 := by
  rw [write_eq]
  refine ⟨⟨_, rfl⟩, fun limit hl => ?_⟩
  have hs : (bytes.extract 0 (sink.room bytes.size)).size ≤ limit - sink.accepted.size := by
    rw [ByteArray.size_extract, room_of_limit hl]
    omega
  simp only [ByteArray.size_append]
  omega

theorem grows_list : ∀ (lines : List String) (sink : Sink), sink.Grows (Session.list lines sink)
  | [], sink => .refl sink
  | line :: rest, sink =>
    (sink.grows_write _).trans (grows_list rest (Output.writeLine sink line).2)

end Sink

/-! ### Programs -/

def Action.Grows {α : Type} (action : Action State α) : Prop :=
  ∀ st : State, st.sink.Grows (action.after st).sink

namespace Action

theorem Grows.bind {α β : Type} {action : Action State α} {next : α → Action State β}
    (h : action.Grows) (hn : ∀ a, (next a).Grows) : Grows (action >>= next) := by
  intro st
  have hs := h st
  rcases ha : action st with ⟨a, mid⟩ | ⟨stop, mid⟩
  · rw [after_of_ok ha] at hs
    rw [after_bind_of_ok next ha]
    exact hs.trans (hn a mid)
  · rw [after_of_error ha] at hs
    rw [after_bind_of_error next ha]
    exact hs

/-- An action that leaves the sink alone. -/
theorem grows_of_keeps {α : Type} {action : Action State α} (h : action.Keeps State.sink) :
    action.Grows := by
  intro st
  rw [h st]
  exact .refl st.sink

end Action

theorem writeLine_grows (line : String) : (writeLine line).Grows := by
  intro st
  have hg : st.sink.Grows (Output.writeLine st.sink line).2 := st.sink.grows_write _
  rcases hw : Output.writeLine st.sink line with ⟨_ | reason, written⟩ <;> rw [hw] at hg
  · rw [Action.after_of_ok (writeLine_of_taken hw)]
    exact hg
  · rw [Action.after_of_error (writeLine_of_refused hw)]
    exact hg

theorem inScope_grows {body : Action State Unit} (h : body.Grows) : (inScope body).Grows := by
  intro st
  have hs := h ⟨st.environment.enter, st.sink⟩
  unfold Action.after at hs ⊢
  rw [inScope_eq]
  split at hs <;> rename_i hb <;> rw [hb] <;> exact hs

theorem grows_closed : Action.Closed fun less _ => less.Grows where
  value _ := Action.grows_of_keeps fun _ => rfl
  exhausted _ := Action.grows_of_keeps fun _ => rfl
  andThen h hn := h.bind hn
  evaluating action := Action.grows_of_keeps (onVariables_keeps_sink action)
  defining _ _ := Action.grows_of_keeps fun _ => rfl
  writing := writeLine_grows
  flushing := Action.grows_of_keeps (flush_keeps _)
  enclosing h := inScope_grows h

theorem interpret_grows (rounds : Nat) (program : Declarations) : (interpret rounds program).Grows :=
  grows_closed.interpret (Nat.le_refl rounds) program

/-! ### Sessions -/

namespace Session

variable {session next : Session}

theorem listed_grows (source : String) (session : Session) :
    session.state.sink.Grows (session.listed source).sink :=
  Sink.grows_list _ session.state.sink

theorem run_grows {rounds : Nat} {source : String} {outcome : Outcome}
    (h : run rounds source session = .ok outcome next) :
    session.state.sink.Grows next.state.sink := by
  have hl := listed_grows source session
  rcases ends_of_run h with ⟨-, -, rfl⟩ | ⟨-, failure, hi, -, -⟩
  · exact hl
  · have hg := interpret_grows rounds (program source) (session.listed source)
    rw [Action.after_of_ending hi] at hg
    exact hl.trans hg

theorem Takes.grows {event : Event} (h : Takes session event next) :
    session.state.sink.Grows next.state.sink := by
  cases h with
  | run hr => exact run_grows hr
  | drain => exact .refl _
  | reset => exact .refl _

end Session
end Lox
