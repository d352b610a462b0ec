/-
# What was written before does not matter

As long as a sink takes all that comes, nothing a program does depends on what
is in the sink already: it comes to the same, and adds the same to the sink.

Key definitions: `State.holding`, `Action.Adds`, `Session.holding`, `Session.listingText`.
Key theorems: `Action.Adds.bind`, `interpret_adds`, `Session.run_adds`.
-/
import Lox.Proofs.Steps

namespace Lox

/-- The state with these bytes written. -/
def State.holding (bytes : ByteArray) (st : State) : State :=
  ⟨st.environment, { st.sink with accepted := bytes }⟩

/-- On a sink without a limit, what the action comes to and what it writes do not depend on what
was written before. -/
def Action.Adds {α : Type} (action : Action State α) : Prop :=
  ∀ st : State, st.sink.limit = none →
    (action.after st).sink.limit = none ∧
    ∃ chunk, ∀ bytes,
      action (st.holding bytes) = mapState (State.holding (bytes ++ chunk)) (action st)

namespace Action

variable {α β : Type}

/-- An action that leaves the sink alone, and its result to the environment. -/
theorem adds_of_environment {action : Action State α}
    (hl : action.Keeps State.sink) (h : ∀ bytes, action.Commutes (State.holding bytes)) :
    action.Adds := by
  intro st hn
  refine ⟨by rw [hl, hn], .empty, fun bytes => ?_⟩
  rw [h, ByteArray.append_empty]

theorem adds_pure (a : α) : (pure a : Action State α).Adds :=
  adds_of_environment (fun _ => rfl) fun _ => commutes_pure a

theorem adds_throw (stop : Stop) : (throw stop : Action State α).Adds :=
  adds_of_environment (fun _ => rfl) fun _ => commutes_throw stop

theorem Adds.bind {action : Action State α} {next : α → Action State β} (h : action.Adds)
    (hnext : ∀ a, (next a).Adds) : Adds (action >>= next) := by
  intro st hn
  obtain ⟨hl, chunk, hc⟩ := h st hn
  rcases ha : action st with ⟨a, mid⟩ | ⟨stop, mid⟩
  · rw [after_of_ok ha] at hl
    obtain ⟨hl', chunk', hc'⟩ := hnext a mid hl
    refine ⟨by rw [after_bind_of_ok next ha, hl'], chunk ++ chunk', fun bytes => ?_⟩
    have hs : action (st.holding bytes) = .ok a (mid.holding (bytes ++ chunk)) := by
      rw [hc, ha]
      rfl
    rw [bind_of_ok next hs, bind_of_ok next ha, hc', ByteArray.append_assoc]
  · rw [after_of_error ha] at hl
    refine ⟨by rw [after_bind_of_error next ha, hl], chunk, fun bytes => ?_⟩
    have hs : action (st.holding bytes) = .error stop (mid.holding (bytes ++ chunk)) := by
      rw [hc, ha]
      rfl
    rw [bind_of_error next hs, bind_of_error next ha]
    rfl

end Action

/-! ### Programs -/

theorem onVariables_adds {α : Type} (action : Action Environment α) : (onVariables action).Adds :=
  Action.adds_of_environment (onVariables_keeps_sink action) fun bytes =>
    onVariables_commutes (W := Sink) action ({ · with accepted := bytes })

theorem define_adds (name : String) (v : Value) : (define name v).Adds :=
  Action.adds_of_environment (fun _ => rfl) fun _ _ => rfl

/-- A sink without a limit takes what is offered. -/
theorem Sink.write_of_limit_none {sink : Sink} (h : sink.limit = none) (bytes : ByteArray) :
    sink.write bytes = (none, { sink with accepted := sink.accepted ++ bytes }) := by
  have hr : sink.room bytes.size = bytes.size := by
    unfold Sink.room
    rw [h]
  rw [Sink.write, if_pos hr]

theorem writeLine_of_limit_none {st : State} (h : st.sink.limit = none) (line : String) :
    writeLine line st =
      .ok () (st.holding (st.sink.accepted ++ (line ++ "\n").toUTF8)) := by
  have hw : Output.writeLine st.sink line = _ := Sink.write_of_limit_none h (line ++ "\n").toUTF8
  exact writeLine_of_taken hw

theorem writeLine_adds (line : String) : (writeLine line).Adds := by
  intro st hn
  have hw := writeLine_of_limit_none hn line
  refine ⟨by rw [Action.after_of_ok hw]; exact hn, (line ++ "\n").toUTF8, fun bytes => ?_⟩
  have hh : (st.holding bytes).sink.limit = none := hn
  rw [hw, writeLine_of_limit_none hh]
  rfl

theorem inScope_adds {body : Action State Unit} (h : body.Adds) : (inScope body).Adds := by
  intro st hn
  obtain ⟨hl, chunk, hc⟩ := h ⟨st.environment.enter, st.sink⟩ hn
  refine ⟨?_, chunk, fun bytes => ?_⟩
  · unfold Action.after at hl ⊢
    rw [inScope_eq]
    split at hl <;> rename_i hb <;> rw [hb] <;> exact hl
  · have hs := hc bytes
    rw [inScope_eq, inScope_eq, mapState_mapState]
    refine (congrArg (mapState _) hs).trans ?_
    rw [mapState_mapState]
    rfl

theorem flush_adds : flush.Adds :=
  Action.adds_of_environment (flush_keeps State.sink) fun bytes =>
    flush_commutes (f := ({ · with accepted := bytes })) fun _ => rfl

theorem adds_closed : Action.Closed fun less _ => less.Adds where
  value := Action.adds_pure
  exhausted _ := Action.adds_throw .outOfRounds
  andThen h hn := h.bind hn
  evaluating := onVariables_adds
  defining := define_adds
  writing := writeLine_adds
  flushing := flush_adds
  enclosing h := inScope_adds h

/-- What a program does and writes does not depend on what was written before. -/
theorem interpret_adds (rounds : Nat) (program : Declarations) : (interpret rounds program).Adds :=
  adds_closed.interpret (Nat.le_refl rounds) program

/-! ### Runs -/

namespace Session

/-- The session with these bytes written. -/
def holding (bytes : ByteArray) (session : Session) : Session :=
  { session with state := session.state.holding bytes }

/-- A sink without a limit takes every line. -/
theorem list_of_limit_none : ∀ (lines : List String) {sink : Sink}, sink.limit = none →
    list lines sink =
      { sink with accepted := sink.accepted ++ (String.join (lines.map (· ++ "\n"))).toUTF8 }
  | [], sink, _ => by
    rw [List.map_nil, String.join_nil]
    exact congrArg (fun bytes => { sink with accepted := bytes }) ByteArray.append_empty.symm
  | line :: rest, sink, hn => by
    have hw := Sink.write_of_limit_none hn (line ++ "\n").toUTF8
    have hr : list rest { sink with accepted := sink.accepted ++ (line ++ "\n").toUTF8 } = _ :=
      list_of_limit_none rest hn
    show list rest (sink.write (line ++ "\n").toUTF8).2 = _
    have hj : (line ++ "\n" ++ String.join (rest.map (· ++ "\n"))).toUTF8 =
        (line ++ "\n").toUTF8 ++ (String.join (rest.map (· ++ "\n"))).toUTF8 :=
      String.toByteArray_append
    rw [hw, hr, List.map_cons, String.join_cons, hj, ← ByteArray.append_assoc]

/-- What a run lists before it executes anything. -/
def listingText (options : Options) (source : String) : String :=
  String.join ((listing options (scan source).tokens (program source)).map (· ++ "\n"))

theorem listed_of_limit_none (source : String) {session : Session}
    (hn : session.state.sink.limit = none) :
    session.listed source = session.state.holding
      (session.state.sink.accepted ++ (listingText session.options source).toUTF8) :=
  congrArg (State.mk session.state.environment ·) (list_of_limit_none _ hn)

theorem listed_adds (source : String) {session : Session} (hn : session.state.sink.limit = none) :
    (session.listed source).sink.limit = none ∧
    ∃ chunk, ∀ bytes,
      (session.holding bytes).listed source =
        (session.listed source).holding (bytes ++ chunk) := by
  rw [listed_of_limit_none source hn]
  refine ⟨hn, (listingText session.options source).toUTF8, fun bytes => ?_⟩
  have hb : (session.holding bytes).state.sink.limit = none := hn
  rw [listed_of_limit_none source hb]
  rfl

/-- What a run comes to and what it writes do not depend on what was written before. -/
theorem run_adds (rounds : Nat) (source : String) {session : Session}
    (hn : session.state.sink.limit = none) :
    (∀ outcome next, run rounds source session = .ok outcome next →
      next.state.sink.limit = none) ∧
    ∃ chunk, ∀ bytes,
      run rounds source (session.holding bytes) =
        mapState (holding (bytes ++ chunk)) (run rounds source session) := by
  obtain ⟨hln, listing, hl⟩ := listed_adds source hn
  have hc : ∀ bytes, (session.holding bytes).checked source = session.checked source :=
    fun _ => rfl
  by_cases he : (session.checked source).hadError = true
  · -- the listings are all that is written
    rw [run_of_static he]
    refine ⟨fun outcome next h => by cases h; exact hln, listing, fun bytes => ?_⟩
    rw [run_of_static (by rw [hc, he]), hl]
    rfl
  · obtain ⟨hi, chunk, hadds⟩ := interpret_adds rounds (program source) _ hln
    refine ⟨fun outcome next h => ?_, listing ++ chunk, fun bytes => ?_⟩
    · rw [run_eq, if_neg he] at h
      unfold Action.after at hi
      rcases hr : interpret rounds (program source) (session.listed source) with
        ⟨⟨⟩, st⟩ | ⟨f | m | _, st⟩ <;> rw [hr] at h hi <;> cases h <;> exact hi
    · rw [run_eq, run_eq, hc, if_neg he, if_neg he, hl, hadds, ByteArray.append_assoc]
      rcases interpret rounds (program source) (session.listed source) with
        ⟨⟨⟩, st⟩ | ⟨f | m | _, st⟩ <;> rfl

end Session
end Lox
