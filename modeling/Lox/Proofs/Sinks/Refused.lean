/-
# Where output is refused

A program that stops because a line was refused stops in a print statement it
comes to. It leaves the variables as they are there, with the scopes closed
that are open at that place, and the sink as the refused line leaves it. With
a sink that has a limit a program comes to nothing that it does not come to
without one, and in the same state.

Key definitions: `Action.Silent`.
Key theorems: `evaluate_silent`, `Comes.unlimited`, `interpret_passes_limit`.
-/
import Lox.Proofs.Sinks.Truncated

namespace Lox

/-! ### Expressions write nothing -/

/-- The action does not stop because of its output. -/
def Action.Silent {σ α : Type} (action : Action σ α) : Prop :=
  ∀ s stop t, action s = .error stop t → ∀ reason, stop ≠ .failure (.output reason)

namespace Action

variable {σ α β : Type}

theorem silent_pure (a : α) : (pure a : Action σ α).Silent := by
  intro s stop t h
  cases h

theorem silent_ofExcept {e : Except Stop α} (h : ∀ reason, e ≠ .error (.failure (.output reason))) :
    (MonadExcept.ofExcept e : Action σ α).Silent := by
  intro s stop t hs reason hr
  cases e with
  | ok a => cases hs
  | error stop' =>
    cases hs
    exact h reason (congrArg Except.error hr)

theorem Silent.bind {action : Action σ α} {next : α → Action σ β} (h : action.Silent)
    (hn : ∀ a, (next a).Silent) : Silent (action >>= next) := by
  intro s stop t hs
  rcases ha : action s with ⟨a, mid⟩ | ⟨stop', mid⟩
  · rw [bind_of_ok next ha] at hs
    exact hn a mid stop t hs
  · rw [bind_of_error next ha] at hs
    cases hs
    exact h s stop t ha

end Action

theorem lookup_silent (name : Token) : (lookup name).Silent := by
  intro env stop t h
  unfold lookup at h
  split at h
  · cases h
  · cases h
    intro reason hr
    cases hr

theorem assign_silent (name : Token) (v : Value) : (assign name v).Silent := by
  intro env stop t h
  unfold assign at h
  split at h
  · cases h
  · cases h
    intro reason hr
    cases hr

theorem applyUnary_ne_output (operator : Token) (v : Value) (reason : String) :
    applyUnary operator v ≠ .error (.failure (.output reason)) := by
  unfold applyUnary Stop.at
  split <;> simp

theorem applyBinary_ne_output (operator : Token) (l r : Value) (reason : String) :
    applyBinary operator l r ≠ .error (.failure (.output reason)) := by
  unfold applyBinary Stop.at
  repeat' split
  all_goals simp

theorem silent_closed : Action.ClosedOnVariables Action.Silent where
  value := Action.silent_pure
  looking := lookup_silent
  assigning := assign_silent
  prefixing operator v := Action.silent_ofExcept (applyUnary_ne_output operator v)
  joining operator l r := Action.silent_ofExcept (applyBinary_ne_output operator l r)
  andThen h hn := h.bind hn

theorem evaluate_silent (e : Expression) : (evaluate e).Silent := silent_closed.evaluate e

/-! ### The print that is refused -/

/-- Only a print is refused. -/
theorem StopsItself.refusal {s : Statement} {st here : State} {reason : String}
    (h : StopsItself s st (.failure (.output reason)) here) :
    ∃ value v, s = .print value ∧ evaluate value st.environment = .ok v here.environment ∧
      Output.writeLine st.sink v.text = (some reason, here.sink) := by
  cases h with
  | head hs he => exact (evaluate_silent _ _ _ _ he reason rfl).elim
  | refused he hw => exact ⟨_, _, rfl, he, hw⟩

/-! ### What a program comes to -/

section Unlimited

variable {limit rounds : Nat}

theorem holds_truncates (limit : Nat) (condition : Expression) :
    (holds condition).Grows ∧ (holds condition).Truncates limit :=
  (truncates_closed limit).evaluating _

theorem execute_truncates (limit rounds : Nat) (s : Statement) :
    (execute rounds s).Grows ∧ (execute rounds s).Truncates limit :=
  (truncates_closed limit).execute (Nat.le_refl rounds) s

/-- The rounds of a loop up to the limit are those without it. -/
theorem Goes.unlimited {test : Action State Bool} {body : Action State Unit} {n : Nat}
    (ht : test.Grows ∧ test.Truncates limit) (hb : body.Grows ∧ body.Truncates limit) {st' last' : State}
    (h : Goes test body n st' last') : ∀ {st : State}, st.Fits limit → st' = st.truncated limit →
      ∃ last, Goes test body n st last ∧ last' = last.truncated limit ∧ last.Fits limit := by
  induction h with
  | nowhere =>
    intro st hf he
    exact ⟨st, .nowhere st, he, hf⟩
  | round hs hs' _ ih =>
    intro st hf he
    subst he
    obtain ⟨mid, ht', rfl, hmid⟩ := ht.2.of_ok ht.1 hf hs
    obtain ⟨next, hb', rfl, hnext⟩ := hb.2.of_ok hb.1 hmid hs'
    obtain ⟨last, hg, rfl, hlast⟩ := ih hnext rfl
    exact ⟨last, .round ht' hb' hg, rfl, hlast⟩

/-- The run comes to the statement, in a state that is this one but for its sink, up to the limit. -/
def ComesUnlimited (limit rounds : Nat) (s : Statement) (st : State) (path : Path) (t : Statement)
    (here : State) : Prop :=
  ∃ last, Comes rounds s st path t last ∧ here = last.truncated limit ∧ last.Fits limit

def ComesInUnlimited (limit rounds : Nat) (ds : Declarations) (st : State) (path : Path)
    (t : Statement) (here : State) : Prop :=
  ∃ last, ComesIn rounds ds st path t last ∧ here = last.truncated limit ∧ last.Fits limit

mutual

/-- What a run with a limit comes to, it comes to without. -/
theorem Comes.unlimited : ∀ {s t : Statement} {st st' here : State} {path : Path},
    Comes rounds s st' path t here → st.Fits limit → st' = st.truncated limit →
    ComesUnlimited limit rounds s st path t here
  | _, _, st, _, _, _, .here h, hf, he => ⟨st, .here h, he, hf⟩
  | .loop condition body, _, st, _, _, _, .round hn hg, hf, he => by
    obtain ⟨last, hg', rfl, hlast⟩ :=
      hg.unlimited (holds_truncates limit condition) (execute_truncates limit rounds body) hf he
    exact ⟨last, .round hn hg', rfl, hlast⟩
  | .loop condition body, _, st, _, _, _, .body hn hg ht h, hf, he => by
    have hc := holds_truncates limit condition
    obtain ⟨here, hg', rfl, hhere⟩ := hg.unlimited hc (execute_truncates limit rounds body) hf he
    obtain ⟨mid, ht', rfl, hmid⟩ := hc.2.of_ok hc.1 hhere ht
    obtain ⟨last, hb, rfl, hlast⟩ := h.unlimited hmid rfl
    exact ⟨last, .body hn hg' ht' hb, rfl, hlast⟩
  | _, _, st, _, _, _, .inside h, hf, he => by
    subst he
    have hin : (⟨st.environment.enter, st.sink⟩ : State).Fits limit := ⟨hf.unlimited, hf.size_le⟩
    obtain ⟨last, hb, rfl, hlast⟩ := h.unlimited hin rfl
    exact ⟨last, .inside hb, rfl, hlast⟩
  | .branch condition _ _, _, st, _, _, _, .yes ht h, hf, he => by
    subst he
    have hc := holds_truncates limit condition
    obtain ⟨mid, ht', rfl, hmid⟩ := hc.2.of_ok hc.1 hf ht
    obtain ⟨last, hb, rfl, hlast⟩ := h.unlimited hmid rfl
    exact ⟨last, .yes ht' hb, rfl, hlast⟩
  | .branch condition _ _, _, st, _, _, _, .no ht h, hf, he => by
    subst he
    have hc := holds_truncates limit condition
    obtain ⟨mid, ht', rfl, hmid⟩ := hc.2.of_ok hc.1 hf ht
    obtain ⟨last, hb, rfl, hlast⟩ := h.unlimited hmid rfl
    exact ⟨last, .no ht' hb, rfl, hlast⟩

theorem ComesIn.unlimited : ∀ {ds : Declarations} {t : Statement} {st st' here : State} {path : Path},
    ComesIn rounds ds st' path t here → st.Fits limit → st' = st.truncated limit →
    ComesInUnlimited limit rounds ds st path t here
  | _, _, st, _, _, _, .first h, hf, he => by
    obtain ⟨last, hb, rfl, hlast⟩ := h.unlimited hf he
    exact ⟨last, .first hb, rfl, hlast⟩
  | some s :: _, _, st, _, _, _, .later hs h, hf, he => by
    subst he
    have hc := execute_truncates limit rounds s
    obtain ⟨mid, hs', rfl, hmid⟩ := hc.2.of_ok hc.1 hf hs
    obtain ⟨last, hb, rfl, hlast⟩ := h.unlimited hmid rfl
    exact ⟨last, .later hs' hb, rfl, hlast⟩
  | _, _, st, _, _, _, .skip h, hf, he => by
    obtain ⟨last, hb, rfl, hlast⟩ := h.unlimited hf he
    exact ⟨last, .skip hb, rfl, hlast⟩

end

end Unlimited

/-! ### The print that passes the limit -/

section Interpret

variable {limit rounds : Nat} {program : Declarations} {st : State}

/-- When its output passes the limit, a program stops in the print with which it does. -/
theorem interpret_passes_limit (hf : st.Fits limit)
    (hp : limit < ((interpret rounds program).after st).sink.accepted.size) :
    ∃ path value v env last, ComesIn rounds program st path (.print value) last ∧
      evaluate value last.environment = .ok v env ∧
      last.sink.accepted.size ≤ limit ∧
      limit < last.sink.accepted.size + (v.text ++ "\n").toUTF8.size ∧
      interpret rounds program (st.truncated limit) =
        .error (.failure (.output st.sink.refusal))
          ⟨env.closed path, ((interpret rounds program).after st).sink.truncated limit⟩ := by
  have ht := ((truncates_closed limit).executeAll (Nat.le_refl rounds) program).2 st hf
  rw [after_interpret] at hp ⊢
  rcases ht with ⟨hle, -⟩ | ⟨-, env, heq⟩
  · omega
  · obtain ⟨path, t, here, after, hc, hstops, hst⟩ := comesIn_of_stops (fun h => by cases h) program heq
    obtain ⟨value, v, rfl, he, hw⟩ := hstops.refusal
    obtain ⟨last, hc', rfl, hlast⟩ := hc.unlimited hf rfl
    have hline : limit < last.sink.accepted.size + (v.text ++ "\n").toUTF8.size := by
      have hw' : (last.sink.truncated limit).write (v.text ++ "\n").toUTF8 = _ := hw
      rw [Sink.write_truncated hlast.unlimited hlast.size_le] at hw'
      have hfst := congrArg Prod.fst hw'
      by_cases hle : last.sink.accepted.size + (v.text ++ "\n").toUTF8.size ≤ limit
      · rw [if_pos hle] at hfst
        cases hfst
      · omega
    refine ⟨path, value, v, after.environment, last, hc', he, hlast.size_le, hline, ?_⟩
    rw [interpret_of_error heq]
    have henv : env = after.environment.closed path := congrArg State.environment hst
    rw [henv]

end Interpret

end Lox
