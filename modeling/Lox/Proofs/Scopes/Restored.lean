/-
# The scopes are restored

However a statement ends, the scopes around it are there again with the names
they had. The innermost of them gains the names of the declarations that the
run carried out and that are in no block of the statement, and no other name.
So a block leaves no name behind, nor does any statement that is read and
is no declaration; and between the runs of a session only the global scope is
left.

Key definitions: `Declares`, `Gains`.
Key theorems: `repeatWhile_gains`, `execute_gains`, `names_of_isBody`,
`execute_restores_scopes`.
-/
import Lox.Proofs.Grammar.WellFormed
import Lox.Proofs.Steps

namespace Lox

/-! ### Declarations that are carried out -/

/-- A variable declared without a value is `nil`. -/
def initialValue : Option Expression → Action Environment Value
  | none => pure .nil
  | some e => evaluate e

/-- The run of a statement carries out a declaration of `name` that is in no block of it. -/
def Declares {W : Type} [Output W] (rounds : Nat) (s : Statement) (st : State W) (name : String) :
    Prop :=
  ∃ path token initializer last v env,
    Comes rounds s st path (.declare token initializer) last ∧ .inside ∉ path ∧
      initialValue initializer last.environment = .ok v env ∧ token.lexeme = name

def DeclaresIn {W : Type} [Output W] (rounds : Nat) (ds : Declarations) (st : State W)
    (name : String) : Prop :=
  ∃ path token initializer last v env,
    ComesIn rounds ds st path (.declare token initializer) last ∧ .inside ∉ path ∧
      initialValue initializer last.environment = .ok v env ∧ token.lexeme = name

section Declares

variable {W : Type} [Output W] {rounds : Nat} {st mid : State W} {name : String}

theorem declares_declare {token : Token} {initializer : Option Expression} :
    Declares rounds (.declare token initializer) st name ↔
      (∃ v env, initialValue initializer st.environment = .ok v env) ∧ token.lexeme = name := by
  constructor
  · rintro ⟨path, _, _, last, v, env, hc, -, hv, hn⟩
    cases hc
    exact ⟨⟨v, env, hv⟩, hn⟩
  · rintro ⟨⟨v, env, hv⟩, hn⟩
    have hc : ∀ condition body, Statement.declare token initializer ≠ .loop condition body :=
      fun _ _ h => by cases h
    exact ⟨[], token, initializer, st, v, env, .here hc, List.not_mem_nil, hv, hn⟩

theorem not_declares_print {value : Expression} : ¬ Declares rounds (.print value) st name := by
  rintro ⟨path, _, _, last, v, env, hc, -⟩
  cases hc

theorem not_declares_evaluate {e : Expression} : ¬ Declares rounds (.evaluate e) st name := by
  rintro ⟨path, _, _, last, v, env, hc, -⟩
  cases hc

theorem not_declares_block {body : Declarations} : ¬ Declares rounds (.block body) st name := by
  rintro ⟨path, _, _, last, v, env, hc, hp, -⟩
  cases hc with
  | inside h => exact hp List.mem_cons_self

theorem mem_cons_inside {turn : Turn} {path : Path} (h : turn ≠ .inside) :
    .inside ∉ turn :: path ↔ .inside ∉ path := by
  rw [List.mem_cons, not_or]
  exact ⟨And.right, fun hp => ⟨h.symm, hp⟩⟩

section Branch

variable {condition : Expression} {yes : Statement} {no : Option Statement}

theorem declares_branch_of_true (ht : holds condition st = .ok true mid) :
    Declares rounds (.branch condition yes no) st name ↔ Declares rounds yes mid name := by
  constructor
  · rintro ⟨path, token, initializer, last, v, env, hc, hp, hv⟩
    cases hc with
    | yes ht' h =>
      cases ht.symm.trans ht'
      exact ⟨_, _, _, last, v, env, h, (mem_cons_inside (by decide)).mp hp, hv⟩
    | no ht' h => cases ht.symm.trans ht'
  · rintro ⟨path, token, initializer, last, v, env, hc, hp, hv⟩
    exact ⟨_, _, _, last, v, env, .yes ht hc, (mem_cons_inside (by decide)).mpr hp, hv⟩

theorem declares_branch_of_false {no : Statement} (ht : holds condition st = .ok false mid) :
    Declares rounds (.branch condition yes (some no)) st name ↔ Declares rounds no mid name := by
  constructor
  · rintro ⟨path, token, initializer, last, v, env, hc, hp, hv⟩
    cases hc with
    | yes ht' h => cases ht.symm.trans ht'
    | no ht' h =>
      cases ht.symm.trans ht'
      exact ⟨_, _, _, last, v, env, h, (mem_cons_inside (by decide)).mp hp, hv⟩
  · rintro ⟨path, token, initializer, last, v, env, hc, hp, hv⟩
    exact ⟨_, _, _, last, v, env, .no ht hc, (mem_cons_inside (by decide)).mpr hp, hv⟩

theorem not_declares_branch_none (ht : holds condition st = .ok false mid) :
    ¬ Declares rounds (.branch condition yes none) st name := by
  rintro ⟨path, token, initializer, last, v, env, hc, -⟩
  cases hc with
  | yes ht' h => cases ht.symm.trans ht'

theorem not_declares_branch_of_error {stop : Stop} (ht : holds condition st = .error stop mid) :
    ¬ Declares rounds (.branch condition yes no) st name := by
  rintro ⟨path, token, initializer, last, v, env, hc, -⟩
  cases hc with
  | yes ht' h => cases ht.symm.trans ht'
  | no ht' h => cases ht.symm.trans ht'

end Branch

/-- In one of the rounds of a loop the run of its body is as `new` says. -/
def InRound {W : Type} (test : Action (State W) Bool) (body : Action (State W) Unit)
    (new : State W → String → Prop) (rounds : Nat) (st : State W) (name : String) : Prop :=
  ∃ n < rounds, ∃ here mid, Goes test body n st here ∧ test here = .ok true mid ∧ new mid name

theorem declares_loop {condition : Expression} {body : Statement} :
    Declares rounds (.loop condition body) st name ↔
      InRound (holds condition) (execute rounds body) (Declares rounds body) rounds st name := by
  constructor
  · rintro ⟨path, token, initializer, last, v, env, hc, hp, hv⟩
    cases hc with
    | body hn hg ht h =>
      exact ⟨_, hn, _, _, hg, ht, _, _, _, last, v, env, h, (mem_cons_inside (by decide)).mp hp, hv⟩
  · rintro ⟨n, hn, here, mid, hg, ht, path, token, initializer, last, v, env, h, hp, hv⟩
    exact ⟨_, _, _, last, v, env, .body hn hg ht h, (mem_cons_inside (by decide)).mpr hp, hv⟩

theorem not_declaresIn_nil : ¬ DeclaresIn rounds [] st name := by
  rintro ⟨path, _, _, last, v, env, hc, -⟩
  cases hc

theorem declaresIn_none {rest : Declarations} :
    DeclaresIn rounds (none :: rest) st name ↔ DeclaresIn rounds rest st name := by
  constructor
  · rintro ⟨path, token, initializer, last, v, env, hc, hp, hv⟩
    cases hc with
    | skip h => exact ⟨_, _, _, last, v, env, h, (mem_cons_inside (by decide)).mp hp, hv⟩
  · rintro ⟨path, token, initializer, last, v, env, h, hp, hv⟩
    exact ⟨_, _, _, last, v, env, .skip h, (mem_cons_inside (by decide)).mpr hp, hv⟩

theorem declaresIn_first {s : Statement} {rest : Declarations} (h : Declares rounds s st name) :
    DeclaresIn rounds (some s :: rest) st name := by
  obtain ⟨path, token, initializer, last, v, env, hc, hp, hv⟩ := h
  exact ⟨_, _, _, last, v, env, .first hc, (mem_cons_inside (by decide)).mpr hp, hv⟩

theorem declaresIn_of_ok {s : Statement} {rest : Declarations} (hs : execute rounds s st = .ok () mid) :
    DeclaresIn rounds (some s :: rest) st name ↔
      Declares rounds s st name ∨ DeclaresIn rounds rest mid name := by
  constructor
  · rintro ⟨path, token, initializer, last, v, env, hc, hp, hv⟩
    cases hc with
    | first h => exact .inl ⟨_, _, _, last, v, env, h, (mem_cons_inside (by decide)).mp hp, hv⟩
    | later hs' h =>
      cases hs.symm.trans hs'
      exact .inr ⟨_, _, _, last, v, env, h, (mem_cons_inside (by decide)).mp hp, hv⟩
  · rintro (h | ⟨path, token, initializer, last, v, env, h, hp, hv⟩)
    · exact declaresIn_first h
    · exact ⟨_, _, _, last, v, env, .later hs h, (mem_cons_inside (by decide)).mpr hp, hv⟩

theorem declaresIn_of_error {s : Statement} {rest : Declarations} {stop : Stop}
    (hs : execute rounds s st = .error stop mid) :
    DeclaresIn rounds (some s :: rest) st name ↔ Declares rounds s st name := by
  refine ⟨?_, declaresIn_first⟩
  rintro ⟨path, token, initializer, last, v, env, hc, hp, hv⟩
  cases hc with
  | first h => exact ⟨_, _, _, last, v, env, h, (mem_cons_inside (by decide)).mp hp, hv⟩
  | later hs' h => cases hs.symm.trans hs'

end Declares

section InRound

variable {W : Type} {test : Action (State W) Bool} {body : Action (State W) Unit}
  {new : State W → String → Prop} {rounds : Nat} {st mid next : State W} {name : String}

theorem not_inRound (ht : ∀ mid, test st ≠ .ok true mid) : ¬ InRound test body new rounds st name := by
  rintro ⟨n, -, here, mid, hg, h, -⟩
  cases hg with
  | nowhere => exact ht mid h
  | round ht' _ _ => exact ht _ ht'

theorem inRound_of_error {stop : Stop} (ht : test st = .ok true mid)
    (hb : body mid = .error stop next) :
    InRound test body new (rounds + 1) st name ↔ new mid name := by
  constructor
  · rintro ⟨n, -, here, mid', hg, h, hn⟩
    cases hg with
    | nowhere =>
      cases ht.symm.trans h
      exact hn
    | round ht' hb' _ =>
      cases ht.symm.trans ht'
      cases hb.symm.trans hb'
  · intro h
    exact ⟨0, by omega, st, mid, .nowhere st, ht, h⟩

theorem inRound_of_ok (ht : test st = .ok true mid) (hb : body mid = .ok () next) :
    InRound test body new (rounds + 1) st name ↔
      new mid name ∨ InRound test body new rounds next name := by
  constructor
  · rintro ⟨n, hn, here, mid', hg, h, hnew⟩
    cases hg with
    | nowhere =>
      cases ht.symm.trans h
      exact .inl hnew
    | @round n _ _ _ _ ht' hb' later =>
      cases ht.symm.trans ht'
      cases hb.symm.trans hb'
      exact .inr ⟨n, by omega, here, mid', later, h, hnew⟩
  · rintro (h | ⟨n, hn, here, mid', hg, h, hnew⟩)
    · exact ⟨0, by omega, st, mid, .nowhere st, ht, h⟩
    · exact ⟨n + 1, by omega, here, mid', .round ht hb hg, h, hnew⟩

end InRound

/-! ### What the innermost scope gains -/

/-- The scopes are those of `before`, and the innermost one has the names besides that
are `new` and that it did not have. -/
structure Gains (before after : Environment) (new : String → Prop) : Prop where
  outer : after.outer.map Scope.names = before.outer.map Scope.names
  innermost : ∃ added, after.innermost.names = before.innermost.names ++ added ∧
    ∀ name, name ∈ added ↔ name ∉ before.innermost.names ∧ new name

namespace Gains

variable {before mid after : Environment} {new new' all : String → Prop}

theorem of_names (h : after.names = before.names) (hn : ∀ name, ¬ new name) :
    Gains before after new := by
  obtain ⟨hi, ho⟩ := List.cons.inj h
  refine ⟨ho, [], by rw [List.append_nil]; exact hi, fun name => ?_⟩
  exact ⟨fun h => (List.not_mem_nil h).elim, fun h => (hn name h.2).elim⟩

theorem names_eq (h : Gains before after new) (hn : ∀ name, ¬ new name) :
    after.names = before.names := by
  obtain ⟨ho, added, hi, ha⟩ := h
  have : added = [] := List.eq_nil_iff_forall_not_mem.mpr fun name hm => hn name ((ha name).mp hm).2
  rw [this, List.append_nil] at hi
  rw [Environment.names_eq, hi, ho, Environment.names_eq]

theorem mem_innermost (h : Gains before after new) (name : String) :
    name ∈ after.innermost.names ↔ name ∈ before.innermost.names ∨ new name := by
  obtain ⟨-, added, hi, ha⟩ := h
  rw [hi, List.mem_append, ha]
  by_cases hm : name ∈ before.innermost.names
  · exact ⟨fun _ => .inl hm, fun _ => .inl hm⟩
  · exact ⟨.imp id And.right, .imp id fun h => ⟨hm, h⟩⟩

theorem depth_eq (h : Gains before after new) : after.depth = before.depth := by
  have := congrArg List.length h.outer
  rw [List.length_map, List.length_map] at this
  exact congrArg (· + 1) this

theorem trans (h : Gains before mid new) (h' : Gains mid after new')
    (hall : ∀ name, all name ↔ new name ∨ new' name) : Gains before after all := by
  have hmid := h.mem_innermost
  obtain ⟨ho, added, hi, ha⟩ := h
  obtain ⟨ho', added', hi', ha'⟩ := h'
  refine ⟨ho'.trans ho, added ++ added', ?_, fun name => ?_⟩
  · rw [hi', hi, List.append_assoc]
  · rw [List.mem_append, ha, ha', hall, hmid]
    by_cases hm : name ∈ before.innermost.names
    · simp [hm]
    · by_cases hn : new name
      · simp [hm, hn]
      · simp [hm, hn]

theorem congr (h : Gains before after new) (hall : ∀ name, all name ↔ new name) :
    Gains before after all := by
  obtain ⟨ho, added, hi, ha⟩ := h
  exact ⟨ho, added, hi, fun name => by rw [ha, hall]⟩

/-- A declaration gains its name. -/
theorem define (env : Environment) (name : String) (v : Value) :
    Gains env (env.define name v) (name = ·) := by
  have hn := Environment.names_define env name v
  obtain ⟨hi, ho⟩ := List.cons.inj hn
  refine ⟨ho, ?_⟩
  unfold withName at hi
  by_cases hm : name ∈ env.innermost.names
  · rw [if_pos hm] at hi
    refine ⟨[], by rw [List.append_nil]; exact hi, fun other => ?_⟩
    refine ⟨fun h => (List.not_mem_nil h).elim, ?_⟩
    rintro ⟨h, rfl⟩
    exact (h hm).elim
  · rw [if_neg hm] at hi
    refine ⟨[name], hi, fun other => ?_⟩
    rw [List.mem_singleton]
    constructor
    · rintro rfl
      exact ⟨hm, rfl⟩
    · rintro ⟨-, h⟩
      exact h.symm

/-- What the body of a block gains goes with its scope. -/
theorem names_leave (h : Gains before.enter after new) : after.leave.names = before.names := by
  have hn : after.names = after.innermost.names :: before.names := by
    rw [Environment.names_eq, h.outer]
    rfl
  rw [Environment.names_eq before] at hn
  rw [Environment.names_leave hn, Environment.names_eq]

end Gains

/-! ### Executing a statement -/

/-- A loop gains what its rounds gain. -/
theorem repeatWhile_gains {W : Type} {test : Action (State W) Bool} {body : Action (State W) Unit}
    {new : State W → String → Prop} (ht : test.Keeps fun st => st.environment.names)
    (hb : ∀ st, Gains st.environment (body.after st).environment (new st)) :
    ∀ (rounds : Nat) (st : State W), Gains st.environment
      ((repeatWhile test body rounds).after st).environment (InRound test body new rounds st)
  | 0, st => by
    apply Gains.of_names rfl
    rintro name ⟨n, hn, -⟩
    omega
  | rounds + 1, st => by
    rcases hs : test st with ⟨b, mid⟩ | ⟨stop, mid⟩
    · have hm := ht.of_ok hs
      cases b with
      | false =>
        rw [Action.after_of_ok (repeatWhile_of_false hs)]
        apply Gains.of_names hm
        intro name
        exact not_inRound fun mid h => by cases hs.symm.trans h
      | true =>
        have hstart : Gains st.environment mid.environment fun _ => False :=
          Gains.of_names hm fun _ => id
        have hround := hb mid
        rcases hs' : body mid with ⟨⟨⟩, next⟩ | ⟨stop, next⟩
        · rw [Action.after_of_ok hs'] at hround
          have hrest := repeatWhile_gains ht hb rounds next
          have hafter : (repeatWhile test body (rounds + 1)).after st =
              (repeatWhile test body rounds).after next := by
            unfold Action.after
            rw [repeatWhile_of_round hs hs']
          rw [hafter]
          refine hstart.trans (hround.trans hrest fun name => inRound_of_ok hs hs') fun name => ?_
          rw [false_or]
        · rw [Action.after_of_error hs'] at hround
          rw [Action.after_of_error (repeatWhile_of_body_error hs hs')]
          refine hstart.trans hround fun name => ?_
          rw [false_or]
          exact inRound_of_error hs hs'
    · rw [Action.after_of_error (repeatWhile_of_error hs)]
      apply Gains.of_names (ht.of_error hs)
      intro name
      exact not_inRound fun mid h => by cases hs.symm.trans h

mutual

/-- A statement gains the names of the declarations its run carries out outside its blocks. -/
theorem execute_gains {W : Type} [Output W] (rounds : Nat) : ∀ (s : Statement) (st : State W),
    Gains st.environment ((execute rounds s).after st).environment (Declares rounds s st)
  | .print value, st => by
    have hk : (execute rounds (.print value)).Keeps fun st : State W => st.environment.names := by
      rw [execute]
      apply (onVariables_keeps (evaluate_keeps_names value)).bind
      intro v st
      exact congrArg Environment.names (writeLine_keeps_environment v.text st)
    exact Gains.of_names (hk st) fun _ => not_declares_print
  | .evaluate e, st => by
    have hk : (execute rounds (.evaluate e)).Keeps fun st : State W => st.environment.names := by
      rw [execute]
      exact (onVariables_keeps (evaluate_keeps_names e)).bind fun _ => Action.keeps_pure _
    exact Gains.of_names (hk st) fun _ => not_declares_evaluate
  | .declare name none, st => by
    rw [execute]
    apply (Gains.define st.environment name.lexeme .nil).congr
    intro other
    rw [declares_declare]
    exact ⟨And.right, fun h => ⟨⟨_, _, rfl⟩, h⟩⟩
  | .declare name (some e), st => by
    rcases he : evaluate e st.environment with ⟨v, env⟩ | ⟨stop, env⟩
    · have ho : execute rounds (.declare name (some e)) st =
          .ok () ⟨env.define name.lexeme v, st.sink⟩ := by
        rw [execute, Action.bind_of_ok _ (onVariables_of_ok he)]
        rfl
      rw [Action.after_of_ok ho]
      have hstart : Gains st.environment env fun _ => False :=
        Gains.of_names ((evaluate_keeps_names e).of_ok he) fun _ => id
      refine hstart.trans (Gains.define env name.lexeme v) fun other => ?_
      rw [declares_declare, false_or]
      exact ⟨And.right, fun h => ⟨⟨v, env, he⟩, h⟩⟩
    · have ho : execute rounds (.declare name (some e)) st = .error stop ⟨env, st.sink⟩ := by
        rw [execute, Action.bind_of_error _ (onVariables_of_error he)]
      rw [Action.after_of_error ho]
      apply Gains.of_names ((evaluate_keeps_names e).of_error he)
      intro other h
      obtain ⟨⟨v, env', hv⟩, -⟩ := declares_declare.mp h
      cases he.symm.trans hv
  | .block body, st => by
    refine Gains.of_names ?_ fun _ => not_declares_block
    have hg := executeAll_gains rounds body ⟨st.environment.enter, st.sink⟩
    rw [execute]
    rcases hb : executeAll rounds body ⟨st.environment.enter, st.sink⟩ with ⟨⟨⟩, last⟩ | ⟨stop, last⟩
    · rw [Action.after_of_ok hb] at hg
      rw [Action.after_of_ok (inScope_of_ok hb)]
      exact hg.names_leave
    · rw [Action.after_of_error hb] at hg
      rw [Action.after_of_error (inScope_of_error hb)]
      exact hg.names_leave
  | .branch condition yes no, st => by
    rcases ht : holds condition st with ⟨b, mid⟩ | ⟨stop, mid⟩
    · have hstart : Gains st.environment mid.environment fun _ => False :=
        Gains.of_names ((holds_keeps_names condition).of_ok ht) fun _ => id
      cases b with
      | true =>
        have ha : (execute rounds (.branch condition yes no)).after st =
            (execute rounds yes).after mid := by
          unfold Action.after
          rw [execute_branch_of_true ht]
        rw [ha]
        refine hstart.trans (execute_gains rounds yes mid) fun name => ?_
        rw [false_or, declares_branch_of_true ht]
      | false =>
        cases no with
        | none =>
          rw [Action.after_of_ok (execute_branch_none_of_false ht)]
          refine Gains.of_names ((holds_keeps_names condition).of_ok ht) fun name => ?_
          exact not_declares_branch_none ht
        | some no =>
          have ha : (execute rounds (.branch condition yes (some no))).after st =
              (execute rounds no).after mid := by
            unfold Action.after
            rw [execute_branch_of_false ht]
          rw [ha]
          refine hstart.trans (execute_gains rounds no mid) fun name => ?_
          rw [false_or, declares_branch_of_false ht]
    · rw [Action.after_of_error (execute_branch_of_error ht)]
      refine Gains.of_names ((holds_keeps_names condition).of_error ht) fun name => ?_
      exact not_declares_branch_of_error ht
  | .loop condition body, st => by
    have hg := repeatWhile_gains (holds_keeps_names condition) (execute_gains rounds body) rounds st
    rw [execute]
    exact hg.congr fun name => declares_loop

theorem executeAll_gains {W : Type} [Output W] (rounds : Nat) : ∀ (ds : Declarations) (st : State W),
    Gains st.environment ((executeAll rounds ds).after st).environment (DeclaresIn rounds ds st)
  | [], st => by
    rw [executeAll]
    exact Gains.of_names rfl fun _ => not_declaresIn_nil
  | none :: rest, st => by
    rw [executeAll]
    exact (executeAll_gains rounds rest st).congr fun _ => declaresIn_none
  | some s :: rest, st => by
    have hg := execute_gains rounds s st
    rcases hs : execute rounds s st with ⟨⟨⟩, mid⟩ | ⟨stop, mid⟩
    · rw [Action.after_of_ok hs] at hg
      have ha : (executeAll rounds (some s :: rest)).after st = (executeAll rounds rest).after mid := by
        unfold Action.after
        rw [executeAll_of_ok hs]
      rw [ha]
      exact hg.trans (executeAll_gains rounds rest mid) fun _ => declaresIn_of_ok hs
    · rw [Action.after_of_error hs] at hg
      rw [Action.after_of_error (executeAll_of_error hs)]
      exact hg.congr fun _ => declaresIn_of_error hs

end

/-! ### Statements that leave no name -/

/-- The parts of well-formed statements and lists are well formed. -/
theorem wellFormed_at? (path : Path) :
    (∀ s t : Statement, s.WellFormed → s.at? path = some t → t.WellFormed) ∧
      ∀ (ds : Declarations) (t : Statement), ds.WellFormed → ds.at? path = some t → t.WellFormed := by
  induction path with
  | nil =>
    constructor
    · intro s t h ht
      rw [Statement.at?] at ht
      cases ht
      exact h
    · intro ds t h ht
      have hn : ds.at? [] = none := by cases ds <;> simp [Declarations.at?]
      rw [hn] at ht
      cases ht
  | cons turn path ih =>
    constructor
    · intro s t h ht
      rw [Statement.at?.eq_def] at ht
      split at ht
      · rename_i he
        cases he
      · rename_i body _ he
        cases he
        exact ih.2 body t h ht
      · rename_i condition yes no _ he
        cases he
        cases no with
        | none => exact ih.1 yes t h.2.1 ht
        | some no => exact ih.1 yes t h.2.1.1 ht
      · rename_i condition yes no _ he
        cases he
        exact ih.1 no t h.2.2.1 ht
      · rename_i condition body _ he
        cases he
        exact ih.1 body t h.2.1 ht
      · cases ht
    · intro ds t h ht
      rw [Declarations.at?.eq_def] at ht
      split at ht
      · rename_i s rest _ he
        cases he
        exact ih.1 s t h.1 ht
      · rename_i entry rest _ he
        cases he
        exact ih.2 rest t (Declarations.wellFormed_cons.mp h).2 ht
      · cases ht

/-- What may be a body declares nothing for those around it. -/
theorem not_declares_of_isBody {W : Type} [Output W] {rounds : Nat} : ∀ {s : Statement}, s.IsBody →
    ∀ (st : State W) (name : String), ¬ Declares rounds s st name
  | .print _, _, _, _ => not_declares_print
  | .evaluate _, _, _, _ => not_declares_evaluate
  | .declare _ _, h, _, _ => by cases h.2
  | .block _, _, _, _ => not_declares_block
  | .branch condition yes none, h, st, name => by
    rcases ht : holds condition st with ⟨_ | _, mid⟩ | ⟨stop, mid⟩
    · exact not_declares_branch_none ht
    · rw [declares_branch_of_true ht]
      exact not_declares_of_isBody h.1.2 mid name
    · exact not_declares_branch_of_error ht
  | .branch condition yes (some no), h, st, name => by
    rcases ht : holds condition st with ⟨_ | _, mid⟩ | ⟨stop, mid⟩
    · rw [declares_branch_of_false ht]
      exact not_declares_of_isBody h.1.2.2 mid name
    · rw [declares_branch_of_true ht]
      exact not_declares_of_isBody h.1.2.1 mid name
    · exact not_declares_branch_of_error ht
  | .loop condition body, h, st, name => by
    rw [declares_loop]
    rintro ⟨n, -, here, mid, -, -, hd⟩
    exact not_declares_of_isBody h.1.2 mid name hd

theorem names_of_isBody {W : Type} [Output W] {rounds : Nat} {s : Statement} (h : s.IsBody)
    (st : State W) :
    ((execute rounds s).after st).environment.names = st.environment.names :=
  (execute_gains rounds s st).names_eq (not_declares_of_isBody h st)

/-! ### Sessions -/

theorem interpret_depth {W : Type} [Output W] (rounds : Nat) (program : Declarations)
    (st : State W) :
    ((interpret rounds program).after st).environment.depth = st.environment.depth := by
  rw [environment_interpret]
  exact (executeAll_gains rounds program st).depth_eq

/-- Only the global scope is left between runs. -/
theorem Session.Reached.depth {W : Type} [Output W] {session : Session W}
    (h : Session.Reached session) :
    session.state.environment.depth = 1 := by
  induction h with
  | new => rfl
  | @run session next rounds source outcome _ hr ih =>
    have hd := interpret_depth rounds (program source) (session.listed source)
    rcases ends_of_run hr with ⟨-, -, rfl⟩ | ⟨-, failure, hi, -, -⟩
    · exact ih
    · rw [Action.after_of_ending hi] at hd
      rw [hd]
      exact ih
  | drain _ ih => exact ih
  | reset _ ih => exact ih

/-- **The scope stack is restored.** However the run of a statement ends, the
depth is what it was and every scope around the innermost one has the names it had;
the innermost one gains exactly the names declared on the way outside of the blocks of
the statement. So a block, and every statement in a program that is read but a
declaration, leaves the names of all scopes as they were, and between the
runs of a session the depth is 1. -/
theorem execute_restores_scopes {W : Type} [Output W] :
    (∀ (rounds : Nat) (s : Statement) (st : State W),
      let after := ((execute rounds s).after st).environment
      after.depth = st.environment.depth ∧
      after.outer.map Scope.names = st.environment.outer.map Scope.names ∧
      ∀ name, name ∈ after.innermost.names ↔
        name ∈ st.environment.innermost.names ∨ Declares rounds s st name) ∧
    (∀ (rounds : Nat) (s : Statement) (st : State W) (name : String), Declares rounds s st name →
      ∃ path token initializer, s.at? path = some (.declare token initializer) ∧
        .inside ∉ path ∧ token.lexeme = name) ∧
    (∀ (rounds : Nat) (body : Declarations) (st : State W),
      ((execute rounds (.block body)).after st).environment.names = st.environment.names) ∧
    (∀ (tokens : List Token) (path : Path) (s : Statement),
      (parse tokens).declarations.at? path = some s → s.isDeclaration = false →
      ∀ (rounds : Nat) (st : State W),
        ((execute rounds s).after st).environment.names = st.environment.names) ∧
    ∀ session : Session W, Session.Reached session → session.state.environment.depth = 1 := by
  refine ⟨fun rounds s st => ?_, ?_, fun rounds body st => ?_, ?_, fun _ h => h.depth⟩
  · have hg := execute_gains rounds s st
    exact ⟨hg.depth_eq, hg.outer, hg.mem_innermost⟩
  · rintro rounds s st name ⟨path, token, initializer, last, v, env, hc, hp, -, hn⟩
    exact ⟨path, token, initializer, hc.at?, hp, hn⟩
  · exact (execute_gains rounds (.block body) st).names_eq fun _ => not_declares_block
  · intro tokens path s hs hd rounds st
    exact names_of_isBody ⟨(wellFormed_at? path).2 _ s (parse_wellFormed tokens) hs, hd⟩ st

/-- `{ var a; { b; } }` stops inside of both blocks and leaves no name. -/
theorem execute_restores_scopes_of_nested :
    let a : Token := ⟨.identifier "a", "a", 1⟩
    let b : Token := ⟨.identifier "b", "b", 2⟩
    let left : Token := ⟨.symbol .leftBrace, "\x7b", 1⟩
    let right : Token := ⟨.symbol .rightBrace, "\x7d", 2⟩
    let semicolon : Token := ⟨.symbol .semicolon, ";", 1⟩
    let tokens := [left, ⟨.symbol .varWord, "var", 1⟩, a, semicolon, left, b, semicolon, right, right,
      ⟨.endOfInput, "", 2⟩]
    let s : Statement := .block [some (.declare a none), some (.block [some (.evaluate (.name b))])]
    (parse tokens).declarations.at? [.first] = some s ∧ s.isDeclaration = false ∧
      execute 1 s ({} : State) = .error (.at b (.undefinedVariable "b")) {} ∧
      ((execute 1 s).after ({} : State)).environment.names = [[]] ∧
      Session.Reached ({} : Session) ∧ ({} : Session).state.environment.depth = 1 := by
  intro a b left right semicolon tokens s
  have hs : (parse tokens).declarations.at? [.first] = some s := by cbv
  have hn : Session.Reached ({} : Session) := .new {} ({} : Sink)
  refine ⟨hs, rfl, rfl, ?_, hn, execute_restores_scopes.2.2.2.2 _ hn⟩
  exact execute_restores_scopes.2.2.2.1 tokens [.first] s hs rfl 1 ({} : State)

end Lox
