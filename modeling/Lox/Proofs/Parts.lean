/-
# The parts of a program

To run a program is to look names up, to assign to names and to declare them,
and to apply operators. The tokens it does this with are the parts of the
program. What every step with an allowed part has, and what is kept where
steps are put together, every program of allowed parts has.

Key definitions: `Part`, `Expression.parts`, `Declarations.parts`, `Action.ClosedOn`.
Key theorems: `Action.ClosedOn.evaluate`, `Action.ClosedOn.execute`, `Action.ClosedOn.interpret`.
-/
import Lox.Execution

namespace Lox

/-- A token of a program with what is done with it. -/
inductive Part where
  | name (token : Token)
  | target (token : Token)
  | declared (token : Token)
  | sign (token : Token)
  | operator (token : Token)
deriving DecidableEq

/-- The name that is looked up, assigned to or declared. -/
def Part.name? : Part → Option String
  | name token | target token | declared token => some token.lexeme
  | sign _ | operator _ => none

/-- The parts of an expression. The words `or` and `and` are none, since neither is applied to
two values. -/
def Expression.parts : Expression → List Part
  | .literal _ => []
  | .group inner => inner.parts
  | .name token => [.name token]
  | .assign target value => value.parts ++ [.target target]
  | .unary operator operand => operand.parts ++ [.sign operator]
  | .binary left operator right => left.parts ++ right.parts ++ [.operator operator]
  | .logical left _ right => left.parts ++ right.parts

mutual

def Statement.parts : Statement → List Part
  | .print value => value.parts
  | .evaluate e => e.parts
  | .declare name none => [.declared name]
  | .declare name (some e) => e.parts ++ [.declared name]
  | .block body => Declarations.parts body
  | .branch condition yes none => condition.parts ++ yes.parts
  | .branch condition yes (some no) => condition.parts ++ yes.parts ++ no.parts
  | .loop condition body => condition.parts ++ body.parts

def Declarations.parts : Declarations → List Part
  | [] => []
  | none :: rest => Declarations.parts rest
  | some s :: rest => s.parts ++ Declarations.parts rest

end

/-- All the names a program mentions. -/
def Declarations.names (program : Declarations) : List String :=
  (Declarations.parts program).filterMap Part.name?

namespace Action

variable {W : Type} [Output W]

/-- `P` holds of the steps of an evaluation and `Q` of those of a program, where the parts are
allowed ones, and both are kept where steps are put together. -/
structure ClosedOn (allowed : Part → Prop) (P : {α : Type} → Action Environment α → Prop)
    (Q : {α : Type} → Action (State W) α → Prop) : Prop where
  value {α : Type} (a : α) : P (pure a)
  looking {name : Token} (h : allowed (.name name)) : P (lookup name)
  assigning {target : Token} (h : allowed (.target target)) (v : Value) : P (assign target v)
  signing {operator : Token} (h : allowed (.sign operator)) (v : Value) :
    P (MonadExcept.ofExcept (applyUnary operator v))
  joining {operator : Token} (h : allowed (.operator operator)) (l r : Value) :
    P (MonadExcept.ofExcept (applyBinary operator l r))
  goingOn {α β : Type} {action : Action Environment α} {next : α → Action Environment β}
    (h : P action) (hn : ∀ a, P (next a)) : P (action >>= next)
  nothing : Q (pure ())
  exhausted : Q (throw .outOfRounds : Action (State W) Unit)
  evaluating {α : Type} {action : Action Environment α} (h : P action) : Q (onVariables action)
  defining {name : Token} (h : allowed (.declared name)) (v : Value) : Q (define name.lexeme v)
  writing (line : String) : Q (writeLine line)
  flushing : Q flush
  enclosing {body : Action (State W) Unit} (h : Q body) : Q (inScope body)
  andThen {α β : Type} {action : Action (State W) α} {next : α → Action (State W) β} (h : Q action)
    (hn : ∀ a, Q (next a)) : Q (action >>= next)

namespace ClosedOn

variable {allowed : Part → Prop} {P : {α : Type} → Action Environment α → Prop}
  {Q : {α : Type} → Action (State W) α → Prop}

theorem evaluate (h : ClosedOn allowed P Q) : ∀ e : Expression, (∀ p ∈ e.parts, allowed p) →
    P (Lox.evaluate e)
  | .literal v, _ => h.value v
  | .group inner, ha => by
    rw [Lox.evaluate]
    exact h.evaluate inner ha
  | .name token, ha => h.looking (ha _ List.mem_cons_self)
  | .assign target value, ha => by
    obtain ⟨hv, ht⟩ := List.forall_mem_append.mp ha
    rw [Lox.evaluate]
    refine h.goingOn (h.evaluate value hv) fun v => ?_
    exact h.goingOn (h.assigning (ht _ List.mem_cons_self) v) fun _ => h.value v
  | .unary operator operand, ha => by
    obtain ⟨he, ho⟩ := List.forall_mem_append.mp ha
    rw [Lox.evaluate]
    exact h.goingOn (h.evaluate operand he) fun v => h.signing (ho _ List.mem_cons_self) v
  | .binary left operator right, ha => by
    obtain ⟨hb, ho⟩ := List.forall_mem_append.mp ha
    obtain ⟨hl, hr⟩ := List.forall_mem_append.mp hb
    rw [Lox.evaluate]
    refine h.goingOn (h.evaluate left hl) fun l => ?_
    exact h.goingOn (h.evaluate right hr) fun r => h.joining (ho _ List.mem_cons_self) l r
  | .logical left operator right, ha => by
    obtain ⟨hl, hr⟩ := List.forall_mem_append.mp ha
    rw [Lox.evaluate]
    refine h.goingOn (h.evaluate left hl) fun l => ?_
    split
    · exact h.value l
    · exact h.evaluate right hr

theorem holds (h : ClosedOn allowed P Q) {condition : Expression}
    (ha : ∀ p ∈ condition.parts, allowed p) : Q (Lox.holds condition) :=
  h.evaluating (h.goingOn (h.evaluate condition ha) fun v => h.value v.isTruthy)

theorem repeating (h : ClosedOn allowed P Q) {test : Action (State W) Bool}
    {body : Action (State W) Unit} (ht : Q test) (hb : Q body) : ∀ rounds : Nat, Q (repeatWhile test body rounds)
  | 0 => h.exhausted
  | rounds + 1 => by
    rw [repeatWhile]
    refine h.andThen ht fun holds => ?_
    split
    · exact h.andThen hb fun _ => h.repeating ht hb rounds
    · exact h.nothing

variable (rounds : Nat)

mutual

theorem execute (h : ClosedOn allowed P Q) : ∀ s : Statement, (∀ p ∈ s.parts, allowed p) →
    Q (Lox.execute rounds s)
  | .print value, ha => by
    rw [Statement.parts] at ha
    rw [Lox.execute]
    exact h.andThen (h.evaluating (h.evaluate value ha)) fun v => h.writing v.text
  | .evaluate e, ha => by
    rw [Statement.parts] at ha
    rw [Lox.execute]
    exact h.andThen (h.evaluating (h.evaluate e ha)) fun _ => h.nothing
  | .declare name none, ha => by
    rw [Statement.parts] at ha
    rw [Lox.execute]
    exact h.defining (ha _ List.mem_cons_self) .nil
  | .declare name (some e), ha => by
    rw [Statement.parts] at ha
    obtain ⟨he, hn⟩ := List.forall_mem_append.mp ha
    rw [Lox.execute]
    refine h.andThen (h.evaluating (h.evaluate e he)) fun v => ?_
    exact h.defining (hn _ List.mem_cons_self) v
  | .block body, ha => by
    rw [Statement.parts] at ha
    rw [Lox.execute]
    exact h.enclosing (h.executeAll body ha)
  | .branch condition yes none, ha => by
    rw [Statement.parts] at ha
    obtain ⟨hc, hy⟩ := List.forall_mem_append.mp ha
    rw [Lox.execute]
    refine h.andThen (h.holds hc) fun holds => ?_
    split
    · exact h.execute yes hy
    · exact h.nothing
  | .branch condition yes (some no), ha => by
    rw [Statement.parts] at ha
    obtain ⟨hb, hn⟩ := List.forall_mem_append.mp ha
    obtain ⟨hc, hy⟩ := List.forall_mem_append.mp hb
    rw [Lox.execute]
    refine h.andThen (h.holds hc) fun holds => ?_
    split
    · exact h.execute yes hy
    · exact h.execute no hn
  | .loop condition body, ha => by
    rw [Statement.parts] at ha
    obtain ⟨hc, hb⟩ := List.forall_mem_append.mp ha
    rw [Lox.execute]
    exact h.repeating (h.holds hc) (h.execute body hb) rounds

theorem executeAll (h : ClosedOn allowed P Q) : ∀ ds : Declarations,
    (∀ p ∈ Declarations.parts ds, allowed p) → Q (Lox.executeAll rounds ds)
  | [], _ => by
    rw [Lox.executeAll]
    exact h.nothing
  | none :: rest, ha => by
    rw [Declarations.parts] at ha
    rw [Lox.executeAll]
    exact h.executeAll rest ha
  | some s :: rest, ha => by
    rw [Declarations.parts] at ha
    obtain ⟨hs, hr⟩ := List.forall_mem_append.mp ha
    rw [Lox.executeAll]
    exact h.andThen (h.execute s hs) fun _ => h.executeAll rest hr

end

theorem interpret (h : ClosedOn allowed P Q) (program : Declarations)
    (ha : ∀ p ∈ Declarations.parts program, allowed p) : Q (Lox.interpret rounds program) :=
  h.andThen (h.executeAll rounds program ha) fun _ => h.flushing

end ClosedOn
end Action
end Lox
