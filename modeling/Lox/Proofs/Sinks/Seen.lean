/-
# What programs see of a sink

A program sees of a sink how it answers. Sinks that answer alike, whatever is
written to them, are the same to every program until it is flushed, and also
then if they answer flushes alike.

Key definitions: `Output.Observes`, `Output.writing`, `Output.flushing`,
`Output.FlushKeepsWriting`, `Output.FlushKeepsFlushing`, `State.seen`.
Key theorems: `Output.observes_flushing`, `executeAll_respects_seen`, `interpret_seen`,
`verdict_interpret_seen`.
-/
import Lox.Proofs.Steps

namespace Lox

namespace Output

variable {W V : Type} [Output W]

/-- Sinks that look the same answer every line alike and look the same after it. -/
structure Observes (view : W → V) : Prop where
  answer {a b : W} (h : view a = view b) (line : String) :
    (writeLine a line).1 = (writeLine b line).1
  later {a b : W} (h : view a = view b) (line : String) :
    view (writeLine a line).2 = view (writeLine b line).2

theorem observes_id : Observes (id : W → W) where
  answer h line := congrArg (fun sink : W => (writeLine sink line).1) h
  later h line := congrArg (fun sink : W => (writeLine sink line).2) h

/-- What is seen of a sink by writing lines: all it has taken then, and how it answers one more. -/
def writing (sink : W) (lines : List String) : ByteArray × (String → Option String) :=
  (accepted (Session.list lines sink), fun line => (writeLine (Session.list lines sink) line).1)

/-- How a sink answers a flush after lines. -/
def flushing (sink : W) (lines : List String) : Option String :=
  (flush (Session.list lines sink)).1

theorem observes_writing : Observes (writing : W → _) where
  answer h := congrFun (congrArg Prod.snd (congrFun h []))
  later h line := funext fun lines => congrFun h (line :: lines)

theorem observes_flushing : Observes fun sink : W => (writing sink, flushing sink) where
  answer h := observes_writing.answer (Prod.mk.inj h).1
  later h line := Prod.ext (observes_writing.later (Prod.mk.inj h).1 line)
    (funext fun lines => congrFun (Prod.mk.inj h).2 (line :: lines))

/-- A flush has no effect on what is written later. -/
def FlushKeepsWriting (W : Type) [Output W] : Prop :=
  ∀ sink : W, writing (flush sink).2 = writing sink

/-- A flush has no effect on how later flushes are answered. -/
def FlushKeepsFlushing (W : Type) [Output W] : Prop :=
  ∀ sink : W, flushing (flush sink).2 = flushing sink

theorem accepted_eq {a b : W} (h : writing a = writing b) : accepted a = accepted b :=
  congrArg Prod.fst (congrFun h [])

end Output

/-- To flush a `Sink` changes nothing. -/
theorem Sink.flushKeepsWriting : Output.FlushKeepsWriting Sink := fun _ => rfl

theorem Sink.flushKeepsFlushing : Output.FlushKeepsFlushing Sink := fun _ => rfl

/-! ### Programs -/

/-- The state with both its parts as they are looked at. -/
def State.seen {W E V : Type} (look : Environment → E) (view : W → V) (st : State W) : E × V :=
  (look st.environment, view st.sink)

section Seen

variable {W E V : Type} {look : Environment → E} {view : W → V}

theorem onVariables_respects_seen {α : Type} {action : Action Environment α}
    (h : action.Respects look) (view : W → V) :
    (onVariables action).Respects (State.seen look view) := by
  intro st other he
  obtain ⟨henv, hsink⟩ := Prod.mk.inj he
  rcases mapState_eq (h _ _ henv) with ⟨a, env, env', hs, ho, hv⟩ | ⟨stop, env, env', hs, ho, hv⟩
  · rw [onVariables_of_ok hs, onVariables_of_ok ho]
    exact congrArg (EStateM.Result.ok a) (Prod.ext hv hsink)
  · rw [onVariables_of_error hs, onVariables_of_error ho]
    exact congrArg (EStateM.Result.error stop) (Prod.ext hv hsink)

theorem define_respects_seen (name : String) (v : Value)
    (hd : ∀ {env other}, look env = look other →
      look (env.define name v) = look (other.define name v)) (view : W → V) :
    (define name v).Respects (State.seen look view) := by
  intro st other he
  obtain ⟨henv, hsink⟩ := Prod.mk.inj he
  exact congrArg (EStateM.Result.ok ()) (Prod.ext (hd henv) hsink)

/-- Both environments get an empty scope, and both lose their innermost one. -/
theorem inScope_respects_seen {body : Action (State W) Unit}
    (he : ∀ {env other}, look env = look other → look env.enter = look other.enter)
    (hl : ∀ {env other}, look env = look other → look env.leave = look other.leave)
    (h : body.Respects (State.seen look view)) :
    (inScope body).Respects (State.seen look view) := by
  intro st other hseen
  obtain ⟨henv, hsink⟩ := Prod.mk.inj hseen
  have henter : State.seen look view ⟨st.environment.enter, st.sink⟩ =
      State.seen look view ⟨other.environment.enter, other.sink⟩ := Prod.ext (he henv) hsink
  have hleave : ∀ last last' : State W, last.seen look view = last'.seen look view →
      State.seen look view ⟨last.environment.leave, last.sink⟩ =
        State.seen look view ⟨last'.environment.leave, last'.sink⟩ := by
    intro last last' hlast
    obtain ⟨henv, hsink⟩ := Prod.mk.inj hlast
    exact Prod.ext (hl henv) hsink
  rw [inScope_eq, inScope_eq]
  rcases mapState_eq (h _ _ henter) with ⟨⟨⟩, last, last', hs, ho, hv⟩ | ⟨stop, last, last', hs, ho, hv⟩
  · rw [hs, ho]
    exact congrArg (EStateM.Result.ok ()) (hleave last last' hv)
  · rw [hs, ho]
    exact congrArg (EStateM.Result.error stop) (hleave last last' hv)

variable [Output W]

theorem writeLine_respects_seen (hv : Output.Observes view) (line : String) :
    (writeLine line).Respects (State.seen look view) := by
  intro st other he
  obtain ⟨henv, hsink⟩ := Prod.mk.inj he
  have ha := hv.answer hsink line
  have hl := hv.later hsink line
  rcases hs : Output.writeLine st.sink line with ⟨_ | reason, written⟩ <;>
    rcases ho : Output.writeLine other.sink line with ⟨_ | reason', written'⟩ <;>
    rw [hs, ho] at ha hl
  · rw [writeLine_of_taken hs, writeLine_of_taken ho]
    exact congrArg (EStateM.Result.ok ()) (Prod.ext henv hl)
  · cases ha
  · cases ha
  · cases ha
    rw [writeLine_of_refused hs, writeLine_of_refused ho]
    exact congrArg (EStateM.Result.error _) (Prod.ext henv hl)

theorem seen_closed (hv : Output.Observes view) :
    Action.ClosedUnflushed fun less _ => less.Respects (State.seen id view) where
  value := Action.respects_pure
  exhausted _ := Action.respects_throw .outOfRounds
  andThen h hn := h.bind hn
  evaluating action := onVariables_respects_seen (Action.respects_id action) view
  defining name v :=
    define_respects_seen name v (congrArg fun env : Environment => env.define name v) view
  writing := writeLine_respects_seen hv
  enclosing h := inScope_respects_seen (congrArg Environment.enter) (congrArg Environment.leave) h

theorem executeAll_respects_seen (hv : Output.Observes view) (rounds : Nat) (ds : Declarations) :
    (executeAll rounds ds).Respects (State.seen id view) :=
  (seen_closed hv).executeAll (Nat.le_refl rounds) ds

end Seen

section Interpret

variable {W : Type} [Output W] (rounds : Nat) (program : Declarations) {st other : State W}

/-- A program leaves the same variables, and output, on sinks that nothing written tells apart, if
nothing written tells either from itself flushed. -/
theorem interpret_seen (hw : Output.FlushKeepsWriting W)
    (he : st.seen id Output.writing = other.seen id Output.writing) :
    (leaves (interpret rounds program st)).seen id Output.writing =
      (leaves (interpret rounds program other)).seen id Output.writing := by
  have hflush : ∀ mid : State W,
      (leaves (flush mid)).seen id Output.writing = mid.seen id Output.writing := by
    intro mid
    rw [flush_eq]
    split <;> exact Prod.ext rfl (hw mid.sink)
  unfold interpret
  rcases mapState_eq (executeAll_respects_seen Output.observes_writing rounds program st other he)
    with ⟨⟨⟩, mid, mid', hs, ho, hv⟩ | ⟨stop, mid, mid', hs, ho, hv⟩
  · rw [Action.bind_of_ok _ hs, Action.bind_of_ok _ ho, hflush, hflush, hv]
  · rw [Action.bind_of_error _ hs, Action.bind_of_error _ ho]
    exact hv

/-- A program comes to the same on sinks that neither lines nor a flush tell apart. -/
theorem verdict_interpret_seen
    (he : st.seen id (fun sink => (Output.writing sink, Output.flushing sink)) =
      other.seen id fun sink => (Output.writing sink, Output.flushing sink)) :
    verdict (interpret rounds program st) = verdict (interpret rounds program other) := by
  unfold interpret
  rcases mapState_eq (executeAll_respects_seen Output.observes_flushing rounds program st other he)
    with ⟨⟨⟩, mid, mid', hs, ho, hv⟩ | ⟨stop, mid, mid', hs, ho, hv⟩
  · have hf : (Output.flush mid.sink).1 = (Output.flush mid'.sink).1 :=
      congrFun (Prod.mk.inj (Prod.mk.inj hv).2).2 []
    rw [Action.bind_of_ok _ hs, Action.bind_of_ok _ ho, flush_eq, flush_eq, hf]
    split <;> rfl
  · rw [Action.bind_of_error _ hs, Action.bind_of_error _ ho]
    rfl

end Interpret

end Lox
