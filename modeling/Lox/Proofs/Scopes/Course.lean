/-
# The course of a run

What a run does on its way. A place in a program is the path of turns that
leads to it, and `Comes` says that the run of a statement gets to the
statement at a place, and in which state; inside a loop it can get to the
same place once a round. It follows `execute`: up to where the run
stops, it gets to everything that is not skipped; and it stops in a statement
that stops by itself, with the scopes closed that are open there.

Key definitions: `Turn`, `Path`, `Statement.at?`, `Goes`, `Comes`, `ComesIn`, `StopsItself`.
Key theorems: `Comes.at?`, `repeatWhile_of_goes`, `Comes.stops`, `comes_of_stops`.
-/
import Lox.Proofs.Scopes.Names

namespace Lox

/-! ### Places -/

/-- A step from a list, a statement or an expression to a part of it. -/
inductive Turn where
  | first | later
  | inside | yes | no | body
  | head
  | inner | value | operand | left | right
deriving DecidableEq, Repr

abbrev Path := List Turn

mutual

/-- The statement at a place in a statement. -/
def Statement.at? : Statement → Path → Option Statement
  | s, [] => some s
  | .block body, .inside :: path => Declarations.at? body path
  | .branch _ yes _, .yes :: path => yes.at? path
  | .branch _ _ (some no), .no :: path => no.at? path
  | .loop _ body, .body :: path => body.at? path
  | _, _ :: _ => none

/-- The statement at a place in a list of declarations. -/
def Declarations.at? : Declarations → Path → Option Statement
  | some s :: _, .first :: path => s.at? path
  | _ :: rest, .later :: path => Declarations.at? rest path
  | _, _ => none

end

/-- The expression a statement evaluates itself, not through its parts. -/
def Statement.head? : Statement → Option Expression
  | .print value => some value
  | .evaluate e => some e
  | .declare _ initializer => initializer
  | .block _ => none
  | .branch condition _ _ => some condition
  | .loop condition _ => some condition

/-! ### Ways through a program -/

/-- A loop entered in one state is in the other after `n` whole rounds. -/
inductive Goes {W : Type} (test : Action (State W) Bool) (body : Action (State W) Unit) :
    Nat → State W → State W → Prop
  | nowhere (st : State W) : Goes test body 0 st st
  | round {n : Nat} {st mid next last : State W} (ht : test st = .ok true mid)
      (hb : body mid = .ok () next) (later : Goes test body n next last) :
      Goes test body (n + 1) st last

mutual

/-- The run of a statement from a state gets to the statement at a place, in the state given last.
A loop it gets to anew before each round. -/
inductive Comes {W : Type} [Output W] (rounds : Nat) :
    Statement → State W → Path → Statement → State W → Prop
  | here {s : Statement} {st : State W} (h : ∀ condition body, s ≠ .loop condition body) :
      Comes rounds s st [] s st
  | round {condition : Expression} {body : Statement} {st here : State W} {n : Nat} (hn : n < rounds)
      (hg : Goes (holds condition) (execute rounds body) n st here) :
      Comes rounds (.loop condition body) st [] (.loop condition body) here
  | body {condition : Expression} {body t : Statement} {st here mid last : State W} {path : Path}
      {n : Nat} (hn : n < rounds) (hg : Goes (holds condition) (execute rounds body) n st here)
      (ht : holds condition here = .ok true mid) (h : Comes rounds body mid path t last) :
      Comes rounds (.loop condition body) st (.body :: path) t last
  | inside {body : Declarations} {st last : State W} {path : Path} {t : Statement}
      (h : ComesIn rounds body ⟨st.environment.enter, st.sink⟩ path t last) :
      Comes rounds (.block body) st (.inside :: path) t last
  | yes {condition : Expression} {yes t : Statement} {no : Option Statement} {st mid last : State W}
      {path : Path} (ht : holds condition st = .ok true mid) (h : Comes rounds yes mid path t last) :
      Comes rounds (.branch condition yes no) st (.yes :: path) t last
  | no {condition : Expression} {yes no t : Statement} {st mid last : State W} {path : Path}
      (ht : holds condition st = .ok false mid) (h : Comes rounds no mid path t last) :
      Comes rounds (.branch condition yes (some no)) st (.no :: path) t last

/-- The same for a list of declarations. -/
inductive ComesIn {W : Type} [Output W] (rounds : Nat) :
    Declarations → State W → Path → Statement → State W → Prop
  | first {s t : Statement} {rest : Declarations} {st last : State W} {path : Path}
      (h : Comes rounds s st path t last) : ComesIn rounds (some s :: rest) st (.first :: path) t last
  | later {s t : Statement} {rest : Declarations} {st mid last : State W} {path : Path}
      (hs : execute rounds s st = .ok () mid) (h : ComesIn rounds rest mid path t last) :
      ComesIn rounds (some s :: rest) st (.later :: path) t last
  | skip {t : Statement} {rest : Declarations} {st last : State W} {path : Path}
      (h : ComesIn rounds rest st path t last) :
      ComesIn rounds (none :: rest) st (.later :: path) t last

end

mutual

/-- What a run gets to is part of the program. -/
theorem Comes.at? {W : Type} [Output W] {rounds : Nat} : ∀ {s t : Statement} {st last : State W} {path : Path},
    Comes rounds s st path t last → s.at? path = some t
  | _, _, _, _, _, .here _ => by unfold Statement.at?; rfl
  | _, _, _, _, _, .round _ _ => by unfold Statement.at?; rfl
  | _, _, _, _, _, .body _ _ _ h => by
    unfold Statement.at?
    exact h.at?
  | _, _, _, _, _, .inside h => by
    unfold Statement.at?
    exact h.at?
  | _, _, _, _, _, .yes _ h => by
    unfold Statement.at?
    exact h.at?
  | _, _, _, _, _, .no _ h => by
    unfold Statement.at?
    exact h.at?

theorem ComesIn.at? {W : Type} [Output W] {rounds : Nat} : ∀ {ds : Declarations} {t : Statement} {st last : State W}
    {path : Path}, ComesIn rounds ds st path t last → ds.at? path = some t
  | _, _, _, _, _, .first h => by
    unfold Declarations.at?
    exact h.at?
  | _, _, _, _, _, .later _ h => by
    unfold Declarations.at?
    exact h.at?
  | _, _, _, _, _, .skip h => by
    unfold Declarations.at?
    exact h.at?

end

/-! ### What the steps of a run come to -/

theorem holds_of_error {W : Type} {condition : Expression} {st : State W} {stop : Stop}
    {env : Environment}
    (h : evaluate condition st.environment = .error stop env) :
    holds condition st = .error stop ⟨env, st.sink⟩ :=
  onVariables_of_error (Action.bind_of_error _ h)

theorem evaluate_of_holds_error {W : Type} {condition : Expression} {st st' : State W}
    {stop : Stop} (h : holds condition st = .error stop st') :
    ∃ env, evaluate condition st.environment = .error stop env ∧ st' = ⟨env, st.sink⟩ := by
  rcases he : evaluate condition st.environment with ⟨v, env⟩ | ⟨stop', env⟩
  · have ht : holds condition st = .ok v.isTruthy ⟨env, st.sink⟩ :=
      onVariables_of_ok (Action.bind_of_ok _ he)
    rw [ht] at h
    cases h
  · rw [holds_of_error he] at h
    cases h
    exact ⟨env, rfl, rfl⟩

section Branch

variable {W : Type} [Output W] {rounds : Nat} {condition : Expression} {yes : Statement}
  {no : Option Statement} {st mid : State W}

theorem execute_branch_of_true (h : holds condition st = .ok true mid) :
    execute rounds (.branch condition yes no) st = execute rounds yes mid := by
  cases no with
  | none =>
    rw [execute, Action.bind_of_ok _ h]
    rfl
  | some no =>
    rw [execute, Action.bind_of_ok _ h]
    rfl

theorem execute_branch_of_false {no : Statement} (h : holds condition st = .ok false mid) :
    execute rounds (.branch condition yes (some no)) st = execute rounds no mid := by
  rw [execute, Action.bind_of_ok _ h]
  rfl

theorem execute_branch_none_of_false (h : holds condition st = .ok false mid) :
    execute rounds (.branch condition yes none) st = .ok () mid := by
  rw [execute, Action.bind_of_ok _ h]
  rfl

theorem execute_branch_of_error {stop : Stop} (h : holds condition st = .error stop mid) :
    execute rounds (.branch condition yes no) st = .error stop mid := by
  cases no with
  | none => rw [execute, Action.bind_of_error _ h]
  | some no => rw [execute, Action.bind_of_error _ h]

end Branch

section Loop

variable {W : Type} {test : Action (State W) Bool} {body : Action (State W) Unit} {rounds : Nat}
  {st mid next : State W} {stop : Stop}

theorem repeatWhile_of_false (h : test st = .ok false mid) :
    repeatWhile test body (rounds + 1) st = .ok () mid := by
  rw [repeatWhile, Action.bind_of_ok _ h]
  rfl

theorem repeatWhile_of_error (h : test st = .error stop mid) :
    repeatWhile test body (rounds + 1) st = .error stop mid := by
  rw [repeatWhile, Action.bind_of_error _ h]

theorem repeatWhile_of_round (h : test st = .ok true mid) (hb : body mid = .ok () next) :
    repeatWhile test body (rounds + 1) st = repeatWhile test body rounds next := by
  rw [repeatWhile, Action.bind_of_ok _ h]
  exact Action.bind_of_ok _ hb

theorem repeatWhile_of_body_error (h : test st = .ok true mid) (hb : body mid = .error stop next) :
    repeatWhile test body (rounds + 1) st = .error stop next := by
  rw [repeatWhile, Action.bind_of_ok _ h]
  exact Action.bind_of_error _ hb

/-- After `n` rounds the rest of the rounds are to run. -/
theorem repeatWhile_of_goes {n : Nat} {last : State W} (h : Goes test body n st last) :
    ∀ rounds, repeatWhile test body (n + rounds) st = repeatWhile test body rounds last := by
  induction h with
  | nowhere st =>
    intro rounds
    rw [Nat.zero_add]
  | @round n st mid next last ht hb _ ih =>
    intro rounds
    have hn : n + 1 + rounds = n + rounds + 1 := by omega
    rw [hn, repeatWhile_of_round ht hb, ih]

end Loop

/-- A loop that is to go round once more is a loop entered there. -/
theorem execute_loop_of_goes {W : Type} [Output W] {rounds n : Nat} {condition : Expression}
    {body : Statement} {st here : State W} (hn : n < rounds)
    (hg : Goes (holds condition) (execute rounds body) n st here) :
    ∃ more, execute rounds (.loop condition body) st =
      repeatWhile (holds condition) (execute rounds body) (more + 1) here := by
  obtain ⟨more, hm⟩ : ∃ more, rounds = n + (more + 1) := ⟨rounds - n - 1, by omega⟩
  refine ⟨more, ?_⟩
  rw [execute, ← repeatWhile_of_goes hg, ← hm]

section List

variable {W : Type} [Output W] {rounds : Nat} {s : Statement} {rest : Declarations}
  {st mid : State W}

theorem executeAll_nil : executeAll rounds [] st = .ok () st := by
  rw [executeAll]
  rfl

theorem executeAll_none : executeAll rounds (none :: rest) st = executeAll rounds rest st := by
  rw [executeAll]

theorem executeAll_of_ok (h : execute rounds s st = .ok () mid) :
    executeAll rounds (some s :: rest) st = executeAll rounds rest mid := by
  rw [executeAll, Action.bind_of_ok _ h]

theorem executeAll_of_error {stop : Stop} (h : execute rounds s st = .error stop mid) :
    executeAll rounds (some s :: rest) st = .error stop mid := by
  rw [executeAll, Action.bind_of_error _ h]

end List

section Steps

variable {W : Type} {st last : State W}

theorem inScope_of_ok {body : Action (State W) Unit}
    (h : body ⟨st.environment.enter, st.sink⟩ = .ok () last) :
    inScope body st = .ok () ⟨last.environment.leave, last.sink⟩ := by
  obtain ⟨environment, sink⟩ := st
  have h : body ⟨environment.enter, sink⟩ = .ok () last := h
  simp only [inScope, h]

theorem inScope_of_error {body : Action (State W) Unit} {stop : Stop}
    (h : body ⟨st.environment.enter, st.sink⟩ = .error stop last) :
    inScope body st = .error stop ⟨last.environment.leave, last.sink⟩ := by
  obtain ⟨environment, sink⟩ := st
  have h : body ⟨environment.enter, sink⟩ = .error stop last := h
  simp only [inScope, h]

variable [Output W] {line reason : String} {sink : W}

theorem writeLine_of_taken (h : Output.writeLine st.sink line = (none, sink)) :
    writeLine line st = .ok () ⟨st.environment, sink⟩ := by
  obtain ⟨environment, before⟩ := st
  have h : Output.writeLine before line = (none, sink) := h
  simp only [writeLine, h]

theorem writeLine_of_refused (h : Output.writeLine st.sink line = (some reason, sink)) :
    writeLine line st = .error (.failure (.output reason)) ⟨st.environment, sink⟩ := by
  obtain ⟨environment, before⟩ := st
  have h : Output.writeLine before line = (some reason, sink) := h
  simp only [writeLine, h]

theorem flush_of_done (h : Output.flush st.sink = (none, sink)) :
    flush st = .ok () ⟨st.environment, sink⟩ := by
  obtain ⟨environment, before⟩ := st
  have h : Output.flush before = (none, sink) := h
  simp only [flush, h]

theorem flush_of_refused (h : Output.flush st.sink = (some reason, sink)) :
    flush st = .error (.failure (.output reason)) ⟨st.environment, sink⟩ := by
  obtain ⟨environment, before⟩ := st
  have h : Output.flush before = (some reason, sink) := h
  simp only [flush, h]

/-- A flush fails if the sink says so, and leaves the variables alone. -/
theorem flush_eq (st : State W) :
    flush st =
      match (Output.flush st.sink).1 with
      | none => .ok () ⟨st.environment, (Output.flush st.sink).2⟩
      | some reason => .error (.failure (.output reason)) ⟨st.environment, (Output.flush st.sink).2⟩ := by
  rcases hf : Output.flush st.sink with ⟨_ | reason, flushed⟩
  · exact flush_of_done hf
  · exact flush_of_refused hf

theorem eq_of_flush_ok (h : flush st = .ok () last) :
    last = ⟨st.environment, (Output.flush st.sink).2⟩ := by
  rw [flush_eq] at h
  split at h
  · cases h
    rfl
  · cases h

end Steps

theorem onVariables_keeps_sink {W α : Type} (action : Action Environment α) :
    (onVariables action).Keeps (State.sink : State W → W) := by
  intro st
  rcases h : action st.environment with ⟨a, env⟩ | ⟨stop, env⟩
  · rw [Action.after_of_ok (onVariables_of_ok h)]
  · rw [Action.after_of_error (onVariables_of_error h)]

/-- The sink with a limit is left as it is. -/
theorem flush_sink (st : State) :
    flush st =
      match st.sink.flushRefusal with
      | none => .ok () st
      | some reason => .error (.failure (.output reason)) st :=
  flush_eq st

theorem flush_keeps {γ : Type} (view : State → γ) : flush.Keeps view := by
  intro st
  unfold Action.after
  rw [flush_sink]
  cases st.sink.flushRefusal <;> rfl

section Interpret

variable {W : Type} [Output W] {rounds : Nat} {program : Declarations} {st last : State W}
  {stop : Stop}

theorem interpret_of_error (h : executeAll rounds program st = .error stop last) :
    interpret rounds program st = .error stop last := by
  unfold interpret
  exact Action.bind_of_error _ h

/-- A program that ends has been executed and flushed. -/
theorem flush_of_interpret_ok (h : interpret rounds program st = .ok () last) :
    ∃ mid, executeAll rounds program st = .ok () mid ∧ flush mid = .ok () last := by
  unfold interpret at h
  rcases hp : executeAll rounds program st with ⟨⟨⟩, mid⟩ | ⟨stop, mid⟩
  · rw [Action.bind_of_ok _ hp] at h
    exact ⟨mid, rfl, h⟩
  · rw [Action.bind_of_error _ hp] at h
    simp at h

/-- Flushing fails of the output alone. -/
theorem executeAll_of_interpret_error (h : interpret rounds program st = .error stop last)
    (hs : ∀ reason, stop ≠ .failure (.output reason)) :
    executeAll rounds program st = .error stop last := by
  unfold interpret at h
  rcases hp : executeAll rounds program st with ⟨⟨⟩, mid⟩ | ⟨stop', mid⟩
  · rw [Action.bind_of_ok _ hp] at h
    rcases hf : Output.flush mid.sink with ⟨_ | reason, flushed⟩
    · rw [flush_of_done hf] at h
      simp at h
    · rw [flush_of_refused hf] at h
      injection h with he _
      exact (hs _ he.symm).elim
  · rw [Action.bind_of_error _ hp] at h
    exact h

end Interpret

/-- Flushing leaves the variables alone. -/
theorem environment_flush {W : Type} [Output W] (st : State W) :
    (flush.after st).environment = st.environment := by
  rcases hf : Output.flush st.sink with ⟨_ | reason, flushed⟩
  · rw [Action.after_of_ok (flush_of_done hf)]
  · rw [Action.after_of_error (flush_of_refused hf)]

theorem environment_interpret {W : Type} [Output W] {rounds : Nat} {program : Declarations}
    {st : State W} : ((interpret rounds program).after st).environment =
      ((executeAll rounds program).after st).environment := by
  unfold interpret
  rcases hp : executeAll rounds program st with ⟨⟨⟩, mid⟩ | ⟨stop, mid⟩
  · rw [Action.after_bind_of_ok _ hp, Action.after_of_ok hp]
    exact environment_flush mid
  · rw [Action.after_bind_of_error _ hp, Action.after_of_error hp]

/-- Flushing the sink with a limit changes nothing. -/
theorem after_interpret {rounds : Nat} {program : Declarations} {st : State} :
    (interpret rounds program).after st = (executeAll rounds program).after st := by
  unfold interpret
  rcases hp : executeAll rounds program st with ⟨⟨⟩, mid⟩ | ⟨stop, mid⟩
  · rw [Action.after_bind_of_ok _ hp, Action.after_of_ok hp]
    exact flush_keeps id mid
  · rw [Action.after_bind_of_error _ hp, Action.after_of_error hp]

/-! ### Where a run stops -/

/-- A statement whose own expression stops it, stops. -/
theorem execute_of_head_error {W : Type} [Output W] {rounds : Nat} {e : Expression} {stop : Stop}
    {env : Environment} {st : State W} (h : evaluate e st.environment = .error stop env) :
    ∀ s : Statement, (∀ condition body, s ≠ .loop condition body) → s.head? = some e →
      execute rounds s st = .error stop ⟨env, st.sink⟩
  | .print value, _, he => by
    cases he
    rw [execute, Action.bind_of_error _ (onVariables_of_error h)]
  | .evaluate e, _, he => by
    cases he
    rw [execute, Action.bind_of_error _ (onVariables_of_error h)]
  | .declare name (some e), _, he => by
    cases he
    rw [execute, Action.bind_of_error _ (onVariables_of_error h)]
  | .branch condition yes no, _, he => by
    cases he
    exact execute_branch_of_error (holds_of_error h)
  | .loop condition body, hl, _ => (hl condition body rfl).elim

mutual

/-- What stops a statement the run gets to, in its own expression, stops the run. -/
theorem Comes.stops {W : Type} [Output W] {rounds : Nat} {e : Expression} {stop : Stop}
    {env : Environment} :
    ∀ {s t : Statement} {st last : State W} {path : Path}, Comes rounds s st path t last →
      t.head? = some e → evaluate e last.environment = .error stop env →
      ∃ st', execute rounds s st = .error stop st'
  | s, _, _, _, _, .here h, he, hs => ⟨_, execute_of_head_error hs s h he⟩
  | _, _, _, _, _, .round hn hg, he, hs => by
    cases he
    obtain ⟨more, hm⟩ := execute_loop_of_goes hn hg
    rw [hm]
    exact ⟨_, repeatWhile_of_error (holds_of_error hs)⟩
  | _, _, _, _, _, .body hn hg ht h, he, hs => by
    obtain ⟨st', hb⟩ := h.stops he hs
    obtain ⟨more, hm⟩ := execute_loop_of_goes hn hg
    rw [hm]
    exact ⟨_, repeatWhile_of_body_error ht hb⟩
  | _, _, _, _, _, .inside h, he, hs => by
    obtain ⟨st', hb⟩ := h.stops he hs
    rw [execute]
    exact ⟨_, inScope_of_error hb⟩
  | _, _, _, _, _, .yes ht h, he, hs => by
    rw [execute_branch_of_true ht]
    exact h.stops he hs
  | _, _, _, _, _, .no ht h, he, hs => by
    rw [execute_branch_of_false ht]
    exact h.stops he hs

theorem ComesIn.stops {W : Type} [Output W] {rounds : Nat} {e : Expression} {stop : Stop}
    {env : Environment} :
    ∀ {ds : Declarations} {t : Statement} {st last : State W} {path : Path},
      ComesIn rounds ds st path t last →
      t.head? = some e → evaluate e last.environment = .error stop env →
      ∃ st', executeAll rounds ds st = .error stop st'
  | _, _, _, _, _, .first h, he, hs => by
    obtain ⟨st', h⟩ := h.stops he hs
    exact ⟨st', executeAll_of_error h⟩
  | _, _, _, _, _, .later ho h, he, hs => by
    rw [executeAll_of_ok ho]
    exact h.stops he hs
  | _, _, _, _, _, .skip h, he, hs => by
    rw [executeAll_none]
    exact h.stops he hs

end

/-- A loop stops in its condition or in its body, after some whole rounds. -/
theorem goes_of_stops {W : Type} {test : Action (State W) Bool} {body : Action (State W) Unit}
    {stop : Stop} (hs : stop ≠ .outOfRounds) {st' : State W} : ∀ {rounds : Nat} {st : State W},
      repeatWhile test body rounds st = .error stop st' →
      ∃ n < rounds, ∃ here, Goes test body n st here ∧ (test here = .error stop st' ∨
        ∃ mid, test here = .ok true mid ∧ body mid = .error stop st')
  | 0, st, h => by
    cases h
    exact (hs rfl).elim
  | rounds + 1, st, h => by
    rcases ht : test st with ⟨b, mid⟩ | ⟨stop', mid⟩
    · cases b with
      | false =>
        rw [repeatWhile_of_false ht] at h
        cases h
      | true =>
        rcases hb : body mid with ⟨⟨⟩, next⟩ | ⟨stop', next⟩
        · rw [repeatWhile_of_round ht hb] at h
          obtain ⟨n, hn, here, hg, hstop⟩ := goes_of_stops hs h
          exact ⟨n + 1, by omega, here, .round ht hb hg, hstop⟩
        · rw [repeatWhile_of_body_error ht hb] at h
          exact ⟨0, by omega, st, .nowhere st, .inr ⟨mid, ht, hb.trans h⟩⟩
    · rw [repeatWhile_of_error ht] at h
      cases h
      exact ⟨0, by omega, st, .nowhere st, .inl ht⟩

/-- The environment with those scopes closed that are open at a place. -/
def Environment.closed (env : Environment) : Path → Environment
  | [] => env
  | .inside :: path => (env.closed path).leave
  | _ :: path => env.closed path

/-- A statement, entered in a state, stops by itself and not in a part of it; with the state it
leaves. -/
inductive StopsItself {W : Type} [Output W] : Statement → State W → Stop → State W → Prop
  | head {s : Statement} {e : Expression} {st : State W} {stop : Stop} {env : Environment}
      (hs : s.head? = some e) (he : evaluate e st.environment = .error stop env) :
      StopsItself s st stop ⟨env, st.sink⟩
  | refused {value : Expression} {v : Value} {st : State W} {env : Environment} {reason : String}
      {sink : W} (he : evaluate value st.environment = .ok v env)
      (hw : Output.writeLine st.sink v.text = (some reason, sink)) :
      StopsItself (.print value) st (.failure (.output reason)) ⟨env, sink⟩

/-- The run of a statement comes to one that stops itself for `stop`, and leaves the state as that
does, but for the scopes that are closed. -/
def ComesToStop {W : Type} [Output W] (rounds : Nat) (s : Statement) (st : State W) (stop : Stop)
    (st' : State W) : Prop :=
  ∃ path t last here, Comes rounds s st path t last ∧ StopsItself t last stop here ∧
    st' = ⟨here.environment.closed path, here.sink⟩

def ComesInToStop {W : Type} [Output W] (rounds : Nat) (ds : Declarations) (st : State W)
    (stop : Stop) (st' : State W) : Prop :=
  ∃ path t last here, ComesIn rounds ds st path t last ∧ StopsItself t last stop here ∧
    st' = ⟨here.environment.closed path, here.sink⟩

theorem comesToStop_here {W : Type} [Output W] {rounds : Nat} {s : Statement} {st here : State W}
    {stop : Stop}
    (hl : ∀ condition body, s ≠ .loop condition body) (h : StopsItself s st stop here) :
    ComesToStop rounds s st stop here :=
  ⟨[], s, st, here, .here hl, h, rfl⟩

section Stop

variable {W : Type} [Output W] {rounds : Nat} {stop : Stop}

mutual

/-- A run that stops, but for its rounds, comes to a statement that stops itself. -/
theorem comes_of_stops (hstop : stop ≠ .outOfRounds) : ∀ (s : Statement) {st st' : State W},
    execute rounds s st = .error stop st' → ComesToStop rounds s st stop st'
  | .print value, st, st', h => by
    have hl : ∀ condition body, Statement.print value ≠ .loop condition body := fun _ _ h => by cases h
    rcases he : evaluate value st.environment with ⟨v, env⟩ | ⟨stop, env⟩
    · rw [execute, Action.bind_of_ok _ (onVariables_of_ok he)] at h
      rcases hw : Output.writeLine st.sink v.text with ⟨_ | reason, sink⟩
      · have ht : writeLine v.text ⟨env, st.sink⟩ = _ := writeLine_of_taken hw
        rw [ht] at h
        cases h
      · have ht : writeLine v.text ⟨env, st.sink⟩ = _ := writeLine_of_refused hw
        rw [ht] at h
        cases h
        exact comesToStop_here hl (.refused he hw)
    · rw [execute, Action.bind_of_error _ (onVariables_of_error he)] at h
      cases h
      exact comesToStop_here hl (.head rfl he)
  | .evaluate e, st, st', h => by
    rcases he : evaluate e st.environment with ⟨v, env⟩ | ⟨stop, env⟩
    · rw [execute, Action.bind_of_ok _ (onVariables_of_ok he)] at h
      cases h
    · rw [execute, Action.bind_of_error _ (onVariables_of_error he)] at h
      cases h
      exact comesToStop_here (fun _ _ h => by cases h) (.head rfl he)
  | .declare name none, st, st', h => by
    rw [execute] at h
    cases h
  | .declare name (some e), st, st', h => by
    rcases he : evaluate e st.environment with ⟨v, env⟩ | ⟨stop, env⟩
    · rw [execute, Action.bind_of_ok _ (onVariables_of_ok he)] at h
      cases h
    · rw [execute, Action.bind_of_error _ (onVariables_of_error he)] at h
      cases h
      exact comesToStop_here (fun _ _ h => by cases h) (.head rfl he)
  | .block body, st, st', h => by
    rw [execute] at h
    rcases hb : executeAll rounds body ⟨st.environment.enter, st.sink⟩ with ⟨⟨⟩, last⟩ | ⟨stop, last⟩
    · rw [inScope_of_ok hb] at h
      cases h
    · rw [inScope_of_error hb] at h
      cases h
      obtain ⟨path, t, mid, here, hc, hs, rfl⟩ := comesIn_of_stops hstop body hb
      exact ⟨.inside :: path, t, mid, here, .inside hc, hs, rfl⟩
  | .branch condition yes no, st, st', h => by
    rcases ht : holds condition st with ⟨b, mid⟩ | ⟨stop, mid⟩
    · cases b with
      | true =>
        rw [execute_branch_of_true ht] at h
        obtain ⟨path, t, last, here, hc, hs, rfl⟩ := comes_of_stops hstop yes h
        exact ⟨.yes :: path, t, last, here, .yes ht hc, hs, rfl⟩
      | false =>
        cases no with
        | none =>
          rw [execute_branch_none_of_false ht] at h
          cases h
        | some no =>
          rw [execute_branch_of_false ht] at h
          obtain ⟨path, t, last, here, hc, hs, rfl⟩ := comes_of_stops hstop no h
          exact ⟨.no :: path, t, last, here, .no ht hc, hs, rfl⟩
    · rw [execute_branch_of_error ht] at h
      cases h
      obtain ⟨env, he, rfl⟩ := evaluate_of_holds_error ht
      exact comesToStop_here (fun _ _ h => by cases h) (.head rfl he)
  | .loop condition body, st, st', h => by
    rw [execute] at h
    obtain ⟨n, hn, here, hg, ht | ⟨mid, ht, hb⟩⟩ := goes_of_stops hstop h
    · obtain ⟨env, he, rfl⟩ := evaluate_of_holds_error ht
      exact ⟨[], _, here, _, .round hn hg, .head rfl he, rfl⟩
    · obtain ⟨path, t, last, here, hc, hs, rfl⟩ := comes_of_stops hstop body hb
      exact ⟨.body :: path, t, last, here, .body hn hg ht hc, hs, rfl⟩

theorem comesIn_of_stops (hstop : stop ≠ .outOfRounds) : ∀ (ds : Declarations) {st st' : State W},
    executeAll rounds ds st = .error stop st' → ComesInToStop rounds ds st stop st'
  | [], st, st', h => by
    rw [executeAll_nil] at h
    cases h
  | none :: rest, st, st', h => by
    rw [executeAll_none] at h
    obtain ⟨path, t, last, here, hc, hs, rfl⟩ := comesIn_of_stops hstop rest h
    exact ⟨.later :: path, t, last, here, .skip hc, hs, rfl⟩
  | some s :: rest, st, st', h => by
    rcases hs : execute rounds s st with ⟨⟨⟩, mid⟩ | ⟨stop, mid⟩
    · rw [executeAll_of_ok hs] at h
      obtain ⟨path, t, last, here, hc, hs', rfl⟩ := comesIn_of_stops hstop rest h
      exact ⟨.later :: path, t, last, here, .later hs hc, hs', rfl⟩
    · rw [executeAll_of_error hs] at h
      cases h
      obtain ⟨path, t, last, here, hc, hs', rfl⟩ := comes_of_stops hstop s hs
      exact ⟨.first :: path, t, last, here, .first hc, hs', rfl⟩

end

end Stop

end Lox
