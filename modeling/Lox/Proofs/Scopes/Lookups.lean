/-
# Looking names up

Evaluating an expression looks up the names that stand in it, each in the
environment as it is by then: that of an assignment after its value is
computed, and none in an operand that is skipped. An undefined variable is
what a look-up fails of, and nothing else fails of it.

Key definitions: `Looks`, `LooksUp`.
Key theorems: `Looks.fails`, `looks_of_fails`, `LooksUp.fails`, `looksUp_of_fails`.
-/
import Lox.Proofs.Scopes.Course

namespace Lox

/-- Evaluating an expression in an environment looks up the name at a place in it, in the
environment given last. -/
inductive Looks : Expression → Environment → Path → Token → Environment → Prop
  | name (token : Token) (env : Environment) : Looks (.name token) env [] token env
  | target {target : Token} {value : Expression} {env env' : Environment} {v : Value}
      (hv : evaluate value env = .ok v env') : Looks (.assign target value) env [] target env'
  | value {target token : Token} {value : Expression} {env env' : Environment} {path : Path}
      (h : Looks value env path token env') :
      Looks (.assign target value) env (.value :: path) token env'
  | inner {inner : Expression} {token : Token} {env env' : Environment} {path : Path}
      (h : Looks inner env path token env') : Looks (.group inner) env (.inner :: path) token env'
  | operand {operator token : Token} {operand : Expression} {env env' : Environment} {path : Path}
      (h : Looks operand env path token env') :
      Looks (.unary operator operand) env (.operand :: path) token env'
  | left {left right : Expression} {operator token : Token} {env env' : Environment} {path : Path}
      (h : Looks left env path token env') :
      Looks (.binary left operator right) env (.left :: path) token env'
  | right {left right : Expression} {operator token : Token} {env mid env' : Environment} {l : Value}
      {path : Path} (hl : evaluate left env = .ok l mid) (h : Looks right mid path token env') :
      Looks (.binary left operator right) env (.right :: path) token env'
  | first {left right : Expression} {operator token : Token} {env env' : Environment} {path : Path}
      (h : Looks left env path token env') :
      Looks (.logical left operator right) env (.left :: path) token env'
  | second {left right : Expression} {operator token : Token} {env mid env' : Environment}
      {l : Value} {path : Path} (hl : evaluate left env = .ok l mid)
      (hk : keepsLeft operator l = false) (h : Looks right mid path token env') :
      Looks (.logical left operator right) env (.right :: path) token env'

/-- Running declarations looks up the name at a place in them, in the environment given last. -/
def LooksUp {W : Type} [Output W] (rounds : Nat) (ds : Declarations) (st : State W) (place : Path)
    (token : Token) (env : Environment) : Prop :=
  ∃ path s last e inside, ComesIn rounds ds st path s last ∧ s.head? = some e ∧
    Looks e last.environment inside token env ∧ place = path ++ .head :: inside

/-! ### Undefined variables -/

/-- What a program stops for when it looks up a name that is not defined. -/
def Stop.undefined (line : Nat) (name : String) : Stop :=
  .failure (.evaluation line (.undefinedVariable name))

theorem lookup_of_none {token : Token} {env : Environment} (h : env.get? token.lexeme = none) :
    lookup token env = .error (.undefined token.line token.lexeme) env := by
  unfold lookup
  rw [h]
  rfl

theorem assign_of_none {token : Token} {env : Environment} (v : Value)
    (h : env.get? token.lexeme = none) :
    assign token v env = .error (.undefined token.line token.lexeme) env := by
  have ha : env.assign? token.lexeme v = none := by
    have := Environment.isSome_assign? env token.lexeme v
    rw [h] at this
    simpa using this
  unfold assign
  rw [ha]
  rfl

section Operators

variable {left right : Expression} {operator : Token} {env mid : Environment} {l : Value}

theorem evaluate_binary_of_ok (hl : evaluate left env = .ok l mid) :
    evaluate (.binary left operator right) env =
      (evaluate right >>= fun r => MonadExcept.ofExcept (applyBinary operator l r)) mid := by
  rw [evaluate]
  exact Action.bind_of_ok _ hl

theorem evaluate_logical_of_kept (hl : evaluate left env = .ok l mid)
    (hk : keepsLeft operator l = true) :
    evaluate (.logical left operator right) env = .ok l mid := by
  rw [evaluate, Action.bind_of_ok _ hl, if_pos hk]
  rfl

theorem evaluate_logical_of_not_kept (hl : evaluate left env = .ok l mid)
    (hk : keepsLeft operator l = false) :
    evaluate (.logical left operator right) env = evaluate right mid := by
  rw [evaluate, Action.bind_of_ok _ hl, if_neg (by rw [hk]; decide)]

end Operators

/-- A look-up that finds nothing ends the evaluation. -/
theorem Looks.fails {e : Expression} {env env' : Environment} {path : Path} {token : Token}
    (h : Looks e env path token env') (hn : env'.get? token.lexeme = none) :
    ∃ last, evaluate e env = .error (.undefined token.line token.lexeme) last := by
  induction h with
  | name token env =>
    rw [evaluate]
    exact ⟨env, lookup_of_none hn⟩
  | @target target value env env' v hv =>
    rw [evaluate, Action.bind_of_ok _ hv]
    exact ⟨env', Action.bind_of_error _ (assign_of_none v hn)⟩
  | value _ ih =>
    obtain ⟨last, he⟩ := ih hn
    rw [evaluate]
    exact ⟨last, Action.bind_of_error _ he⟩
  | inner _ ih =>
    rw [evaluate]
    exact ih hn
  | operand _ ih =>
    obtain ⟨last, he⟩ := ih hn
    rw [evaluate]
    exact ⟨last, Action.bind_of_error _ he⟩
  | left _ ih =>
    obtain ⟨last, he⟩ := ih hn
    rw [evaluate]
    exact ⟨last, Action.bind_of_error _ he⟩
  | right hl _ ih =>
    obtain ⟨last, he⟩ := ih hn
    rw [evaluate_binary_of_ok hl]
    exact ⟨last, Action.bind_of_error _ he⟩
  | first _ ih =>
    obtain ⟨last, he⟩ := ih hn
    rw [evaluate]
    exact ⟨last, Action.bind_of_error _ he⟩
  | second hl hk _ ih =>
    rw [evaluate_logical_of_not_kept hl hk]
    exact ih hn

theorem applyUnary_ne_undefined {operator : Token} {v : Value} {line : Nat} {name : String} :
    applyUnary operator v ≠ .error (Stop.undefined line name) := by
  unfold applyUnary Stop.undefined Stop.at
  split <;> simp

theorem applyBinary_ne_undefined {operator : Token} {l r : Value} {line : Nat} {name : String} :
    applyBinary operator l r ≠ .error (Stop.undefined line name) := by
  unfold applyBinary Stop.undefined Stop.at
  repeat' split
  all_goals simp

theorem ofExcept_error {α : Type} {e : Except Stop α} {env last : Environment} {stop : Stop}
    (h : (MonadExcept.ofExcept e : Action Environment α) env = .error stop last) : e = .error stop := by
  cases e with
  | ok a => cases h
  | error stop' =>
    cases h
    rfl

/-- That evaluating `e` in `env` looks `name` up on `line`, and that there is no such name. -/
def Misses (e : Expression) (env : Environment) (line : Nat) (name : String) : Prop :=
  ∃ path token env', Looks e env path token env' ∧ token.line = line ∧ token.lexeme = name ∧
    env'.get? name = none

section Misses

variable {line : Nat} {name : String}

theorem misses_of_lookup {token : Token} {env last : Environment}
    (h : lookup token env = .error (.undefined line name) last) :
    Misses (.name token) env line name := by
  rcases hg : env.get? token.lexeme with _ | v
  · rw [lookup_of_none hg] at h
    cases h
    exact ⟨[], token, env, .name token env, rfl, rfl, hg⟩
  · unfold lookup at h
    rw [hg] at h
    cases h

/-- An evaluation that fails of an undefined variable looked it up. -/
theorem looks_of_fails : ∀ {e : Expression} {env last : Environment},
    evaluate e env = .error (.undefined line name) last → Misses e env line name
  | .literal v, env, last, h => by
    rw [evaluate] at h
    cases h
  | .group inner, env, last, h => by
    rw [evaluate] at h
    obtain ⟨path, token, env', hl, hm⟩ := looks_of_fails h
    exact ⟨.inner :: path, token, env', .inner hl, hm⟩
  | .name token, env, last, h => by
    rw [evaluate] at h
    exact misses_of_lookup h
  | .assign target value, env, last, h => by
    rw [evaluate] at h
    rcases hv : evaluate value env with ⟨v, mid⟩ | ⟨stop, mid⟩
    · rw [Action.bind_of_ok _ hv] at h
      rcases hg : mid.get? target.lexeme with _ | old
      · rw [Action.bind_of_error _ (assign_of_none v hg)] at h
        cases h
        exact ⟨[], target, last, .target hv, rfl, rfl, hg⟩
      · have hs : (mid.assign? target.lexeme v).isSome = true := by
          rw [Environment.isSome_assign?, hg]
          rfl
        obtain ⟨assigned, ha⟩ := Option.isSome_iff_exists.mp hs
        have hok : assign target v mid = .ok () assigned := by
          unfold assign
          rw [ha]
        rw [Action.bind_of_ok _ hok] at h
        cases h
    · rw [Action.bind_of_error _ hv] at h
      cases h
      obtain ⟨path, token, env', hl, hm⟩ := looks_of_fails hv
      exact ⟨.value :: path, token, env', .value hl, hm⟩
  | .unary operator operand, env, last, h => by
    rw [evaluate] at h
    rcases hv : evaluate operand env with ⟨v, mid⟩ | ⟨stop, mid⟩
    · rw [Action.bind_of_ok _ hv] at h
      exact (applyUnary_ne_undefined (ofExcept_error h)).elim
    · rw [Action.bind_of_error _ hv] at h
      cases h
      obtain ⟨path, token, env', hl, hm⟩ := looks_of_fails hv
      exact ⟨.operand :: path, token, env', .operand hl, hm⟩
  | .binary left operator right, env, last, h => by
    rcases hl : evaluate left env with ⟨l, mid⟩ | ⟨stop, mid⟩
    · rw [evaluate_binary_of_ok hl] at h
      rcases hr : evaluate right mid with ⟨r, next⟩ | ⟨stop, next⟩
      · rw [Action.bind_of_ok _ hr] at h
        exact (applyBinary_ne_undefined (ofExcept_error h)).elim
      · rw [Action.bind_of_error _ hr] at h
        cases h
        obtain ⟨path, token, env', h, hm⟩ := looks_of_fails hr
        exact ⟨.right :: path, token, env', .right hl h, hm⟩
    · rw [evaluate, Action.bind_of_error _ hl] at h
      cases h
      obtain ⟨path, token, env', h, hm⟩ := looks_of_fails hl
      exact ⟨.left :: path, token, env', .left h, hm⟩
  | .logical left operator right, env, last, h => by
    rcases hl : evaluate left env with ⟨l, mid⟩ | ⟨stop, mid⟩
    · rcases hk : keepsLeft operator l with _ | _
      · rw [evaluate_logical_of_not_kept hl hk] at h
        obtain ⟨path, token, env', h, hm⟩ := looks_of_fails h
        exact ⟨.right :: path, token, env', .second hl hk h, hm⟩
      · rw [evaluate_logical_of_kept hl hk] at h
        cases h
    · rw [evaluate, Action.bind_of_error _ hl] at h
      cases h
      obtain ⟨path, token, env', h, hm⟩ := looks_of_fails hl
      exact ⟨.left :: path, token, env', .first h, hm⟩

end Misses

/-! ### Runs -/

section Interpret

variable {W : Type} [Output W] {rounds : Nat} {program : Declarations} {st : State W}

/-- A run that looks up a name that is not defined fails of that. -/
theorem LooksUp.fails {place : Path} {token : Token} {env : Environment}
    (h : LooksUp rounds program st place token env) (hn : env.get? token.lexeme = none) :
    ∃ last, interpret rounds program st = .error (.undefined token.line token.lexeme) last := by
  obtain ⟨path, s, mid, e, inside, hc, he, hl, -⟩ := h
  obtain ⟨env', hf⟩ := hl.fails hn
  obtain ⟨last, hs⟩ := hc.stops he hf
  exact ⟨last, interpret_of_error hs⟩

/-- A run that fails of an undefined variable looked it up. -/
theorem looksUp_of_fails {line : Nat} {name : String} {last : State W}
    (h : interpret rounds program st = .error (.undefined line name) last) :
    ∃ place token env, LooksUp rounds program st place token env ∧ token.line = line ∧
      token.lexeme = name ∧ env.get? name = none := by
  obtain ⟨path, s, mid, _, hc, hstops, -⟩ := comesIn_of_stops (fun h => by cases h) program
    (executeAll_of_interpret_error h fun _ h => by cases h)
  cases hstops with
  | @head _ e _ _ env' he hf =>
    obtain ⟨inside, token, env, hl, hm⟩ := looks_of_fails hf
    exact ⟨path ++ .head :: inside, token, env, ⟨path, s, mid, e, inside, hc, he, hl, rfl⟩, hm⟩

end Interpret

end Lox
