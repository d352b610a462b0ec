/-
# What trees are made of

Every name and operator of a tree that is read is a token of the input, and
every literal is what a token of the input stands for, but for the condition
of a `for` that has none. This holds whatever else is complained about: what
recovery leaves is a part of the input too.

Key definitions: `Expression.MadeOf`, `Statement.MadeOf`, `Reading.Makes`.
Key theorems: `Reading.Makes.andPerhaps`, `Grammar.makes_expression`, `Grammar.makes_statement`,
`Grammar.program_madeOf`.
-/
import Lox.Proofs.Recovery.Attempts

namespace Lox

section Trees

variable (good : Token → Prop)

/-- A good token stands for the value, or it is the condition of a `for` that has none. -/
def Value.MadeOf (v : Value) : Prop :=
  v = .boolean true ∨ ∃ t, good t ∧ t.kind.literal? = some v

/-- The names and operators are good tokens, and the literals are what good tokens stand for. -/
def Expression.MadeOf : Expression → Prop
  | .literal v => v.MadeOf good
  | .group inner => inner.MadeOf
  | .name token => good token
  | .assign target value => good target ∧ value.MadeOf
  | .unary operator operand => good operator ∧ operand.MadeOf
  | .binary left operator right | .logical left operator right =>
    left.MadeOf ∧ good operator ∧ right.MadeOf

mutual

def Statement.MadeOf : Statement → Prop
  | .print value => value.MadeOf good
  | .evaluate e => e.MadeOf good
  | .declare name none => good name
  | .declare name (some e) => good name ∧ e.MadeOf good
  | .block body => Declarations.MadeOf body
  | .branch condition yes none => condition.MadeOf good ∧ yes.MadeOf
  | .branch condition yes (some no) => condition.MadeOf good ∧ yes.MadeOf ∧ no.MadeOf
  | .loop condition body => condition.MadeOf good ∧ body.MadeOf

def Declarations.MadeOf : Declarations → Prop
  | [] => True
  | none :: rest => Declarations.MadeOf rest
  | some s :: rest => s.MadeOf ∧ Declarations.MadeOf rest

end

end Trees

variable {good : Token → Prop}

theorem Declarations.madeOf_cons {entry : Option Statement} {rest : Declarations} :
    Declarations.MadeOf good (entry :: rest) ↔
      (∀ s ∈ entry, s.MadeOf good) ∧ Declarations.MadeOf good rest := by
  cases entry with
  | none => simp [Declarations.MadeOf]
  | some s => simp [Declarations.MadeOf]

/-! ### Readings of good tokens -/

namespace Reading

variable {m n : Nat} {α β : Type} {P : α → Prop} {Q : β → Prop}

/-- The value is as `P` says, and the tokens left are good at both ends. -/
def Makes (good : Token → Prop) (P : α → Prop) (r : Reading n α) : Prop :=
  r.Ends (fun v _ rest => P v ∧ ∀ t ∈ rest, good t) (fun _ _ rest => ∀ t ∈ rest, good t)

@[simp] theorem makes_within (h : m ≤ n) (r : Reading m α) :
    (r.within h).Makes good P ↔ r.Makes good P := ends_within h r

@[simp] theorem makes_past (r : Reading n α) : r.past.Makes good P ↔ r.Makes good P := ends_past r

@[simp] theorem makes_noting (before : List Complaint) (r : Reading n α) :
    (r.noting before).Makes good P ↔ r.Makes good P := ends_noting before r

theorem Makes.map {r : Reading n α} (h : r.Makes good P) {f : α → β} (hf : ∀ v, P v → Q (f v)) :
    (r.map f).Makes good Q :=
  (ends_map f r).mpr (h.imp (fun v _ _ hv => ⟨hf v hv.1, hv.2⟩) fun _ _ _ h => h)

theorem Makes.andPerhaps {r : Reading n α} (h : r.Makes good P)
    {next : (rest : List Token) → rest.length < n → α → Reading n β}
    (hn : ∀ rest shorter v, P v → (∀ t ∈ rest, good t) → (next rest shorter v).Makes good Q) :
    (r.andPerhaps next).Makes good Q :=
  Ends.andPerhaps h fun v _ rest shorter hv => hn rest shorter v hv.1 hv.2

theorem Makes.andThen {r : Reading n α} (h : r.Makes good P)
    {next : (rest : List Token) → rest.length < n → α → Reading rest.length β}
    (hn : ∀ rest shorter v, P v → (∀ t ∈ rest, good t) → (next rest shorter v).Makes good Q) :
    (r.andThen next).Makes good Q :=
  h.andPerhaps fun rest shorter v hv hrest => (makes_within _ _).mpr (hn rest shorter v hv hrest)

theorem makes_expect (s : Symbol) (p : Problem) {input : List Token} (h : ∀ t ∈ input, good t) :
    (expect s p input).Makes good fun _ => True := by
  cases input with
  | nil => exact h
  | cons t rest =>
    rw [expect]
    split
    · exact ⟨trivial, (List.forall_mem_cons.mp h).2⟩
    · exact h

/-- Only the value of the phrase counts when a symbol ends it. -/
theorem makes_ending {w : β} (hw : Q w) (s : Symbol) (p : Problem) {input : List Token}
    (h : ∀ t ∈ input, good t) : ((expect s p input).map fun _ => w).Makes good Q :=
  (makes_expect s p h).map fun _ _ => hw

end Reading

namespace Grammar

/-! ### Expressions -/

theorem assignment_madeOf {target value : Expression} (equals : Token) (ht : target.MadeOf good)
    (hv : value.MadeOf good) : (assignment target equals value).1.MadeOf good := by
  cases target with
  | name token => exact ⟨ht, hv⟩
  | _ => exact ht

theorem join_madeOf (level : Level) {t : Token} {l r : Expression} (ht : good t)
    (hl : l.MadeOf good) (hr : r.MadeOf good) : (level.join l t r).MadeOf good := by
  cases level <;> exact ⟨hl, ht, hr⟩

mutual

theorem makes_expression (input : List Token) (h : ∀ t ∈ input, good t) :
    (expression input).Makes good (Expression.MadeOf good) := by
  rw [expression]
  refine (makes_operation Level.ladder input h).andPerhaps fun rest shorter target ht hrest => ?_
  cases rest with
  | nil => exact ⟨ht, hrest⟩
  | cons t after =>
    show Reading.Makes good _ (if t.kind = .symbol .equal then _ else _)
    split
    · obtain ⟨_, hafter⟩ := List.forall_mem_cons.mp hrest
      rw [Reading.makes_within]
      refine (makes_expression after hafter).andPerhaps fun rest _ value hv hrest => ?_
      exact ⟨assignment_madeOf t ht hv, hrest⟩
    · exact ⟨ht, hrest⟩
termination_by (input.length, Level.ladder.length + 2)
decreasing_by
  · exact Prod.Lex.right _ (Nat.lt_succ_self _)
  · exact Prod.Lex.left _ _ (by grind)

theorem makes_operation (levels : List Level) (input : List Token) (h : ∀ t ∈ input, good t) :
    (operation levels input).Makes good (Expression.MadeOf good) := by
  cases levels with
  | nil =>
    rw [operation]
    exact makes_operand input h
  | cons level tighter =>
    rw [operation]
    exact (makes_operation tighter input h).andPerhaps fun rest shorter left hl hrest =>
      makes_operations level tighter hl rest hrest shorter
termination_by (input.length, levels.length + 1)

theorem makes_operations (level : Level) (tighter : List Level) {left : Expression}
    (hl : left.MadeOf good) {bound : Nat} : ∀ (input : List Token), (∀ t ∈ input, good t) →
      ∀ shorter : input.length < bound,
        (operations level tighter left input shorter).Makes good (Expression.MadeOf good)
  | [], h, _ => by
    rw [operations]
    exact ⟨hl, h⟩
  | t :: after, h, _ => by
    rw [operations]
    split
    · obtain ⟨ht, hafter⟩ := List.forall_mem_cons.mp h
      rw [Reading.makes_within]
      exact (makes_operation tighter after hafter).andPerhaps fun rest shorter right hr hrest =>
        makes_operations level tighter (join_madeOf level ht hl hr) rest hrest shorter
    · exact ⟨hl, h⟩
termination_by input => (input.length, 0)

theorem makes_operand (input : List Token) (h : ∀ t ∈ input, good t) :
    (operand input).Makes good (Expression.MadeOf good) := by
  cases input with
  | nil =>
    rw [operand]
    exact h
  | cons t after =>
    obtain ⟨ht, hafter⟩ := List.forall_mem_cons.mp h
    rw [operand]
    split
    · rw [Reading.makes_past]
      exact (makes_operand after hafter).map fun e he => ⟨ht, he⟩
    · split
      · exact ⟨ht, hafter⟩
      · rw [Reading.makes_past]
        refine (makes_expression after hafter).andThen fun rest _ inner hi hrest => ?_
        have hgroup : (Expression.group inner).MadeOf good := hi
        exact Reading.makes_ending hgroup _ _ hrest
      · split
        · rename_i value hv
          exact ⟨.inr ⟨t, ht, hv⟩, hafter⟩
        · exact h
termination_by (input.length, 0)

end

/-! ### Statements -/

theorem makes_initializer {name : Token} (hname : good name) {input : List Token}
    (h : ∀ t ∈ input, good t) : (initializer name input).Makes good (Statement.MadeOf good) := by
  cases input with
  | nil => exact h
  | cons t after =>
    obtain ⟨_, hafter⟩ := List.forall_mem_cons.mp h
    rw [initializer]
    split
    · rw [Reading.makes_past]
      refine (makes_expression after hafter).andThen fun rest _ value hv hrest => ?_
      have hd : (Statement.declare name (some value)).MadeOf good := ⟨hname, hv⟩
      exact Reading.makes_ending hd _ _ hrest
    · have hd : (Statement.declare name none).MadeOf good := hname
      exact Reading.makes_ending hd _ _ h

theorem makes_variableDeclaration {input : List Token} (h : ∀ t ∈ input, good t) :
    (variableDeclaration input).Makes good (Statement.MadeOf good) := by
  cases input with
  | nil => exact h
  | cons name after =>
    obtain ⟨hname, hafter⟩ := List.forall_mem_cons.mp h
    rw [variableDeclaration]
    split
    · rw [Reading.makes_past]
      exact makes_initializer hname hafter
    · exact h

/-- An expression with a symbol after it. -/
theorem makes_simple {α : Type} {Q : α → Prop} {make : Expression → α}
    (hmake : ∀ e, e.MadeOf good → Q (make e)) (s : Symbol) (p : Problem) {input : List Token}
    (h : ∀ t ∈ input, good t) :
    ((expression input).andThen fun rest _ e =>
      (expect s p rest).map fun _ => make e).Makes good Q :=
  (makes_expression input h).andThen fun _ _ e he hrest =>
    Reading.makes_ending (hmake e he) s p hrest

theorem makes_printStatement {input : List Token} (h : ∀ t ∈ input, good t) :
    (printStatement input).Makes good (Statement.MadeOf good) := by
  have hmake : ∀ e : Expression, e.MadeOf good → (Statement.print e).MadeOf good := fun _ he => he
  exact makes_simple hmake _ _ h

theorem makes_expressionStatement {input : List Token} (h : ∀ t ∈ input, good t) :
    (expressionStatement input).Makes good (Statement.MadeOf good) := by
  have hmake : ∀ e : Expression, e.MadeOf good → (Statement.evaluate e).MadeOf good :=
    fun _ he => he
  exact makes_simple hmake _ _ h

theorem forall_mem_some {α : Type} {P : α → Prop} (a : α) (h : P a) : ∀ b ∈ some a, P b := by
  rintro _ ⟨⟩
  exact h

theorem makes_startClause {input : List Token} (h : ∀ t ∈ input, good t) :
    (startClause input).Makes good fun start => ∀ s ∈ start, s.MadeOf good := by
  cases input with
  | nil => exact (makes_expressionStatement h).map forall_mem_some
  | cons t after =>
    obtain ⟨_, hafter⟩ := List.forall_mem_cons.mp h
    rw [startClause]
    split
    · refine ⟨?_, hafter⟩
      rintro _ ⟨⟩
    · rw [Reading.makes_past]
      exact (makes_variableDeclaration hafter).map forall_mem_some
    · exact (makes_expressionStatement h).map forall_mem_some

theorem makes_conditionClause {input : List Token} (h : ∀ t ∈ input, good t) :
    (conditionClause input).Makes good (Expression.MadeOf good) := by
  cases input with
  | nil => exact makes_simple (fun _ he => he) _ _ h
  | cons t after =>
    rw [conditionClause]
    split
    · exact ⟨.inl rfl, (List.forall_mem_cons.mp h).2⟩
    · exact makes_simple (fun _ he => he) _ _ h

theorem makes_stepClause {input : List Token} (h : ∀ t ∈ input, good t) :
    (stepClause input).Makes good fun step => ∀ e ∈ step, e.MadeOf good := by
  have hstep : (loopStep input).Makes good (Expression.MadeOf good) :=
    makes_simple (fun _ he => he) _ _ h
  cases input with
  | nil => exact hstep.map forall_mem_some
  | cons t after =>
    rw [stepClause]
    split
    · refine ⟨?_, (List.forall_mem_cons.mp h).2⟩
      rintro _ ⟨⟩
    · exact hstep.map forall_mem_some

theorem forLoop_madeOf {start : Option Statement} {condition : Expression}
    {step : Option Expression} {body : Statement} (hs : ∀ s ∈ start, s.MadeOf good)
    (hc : condition.MadeOf good) (he : ∀ e ∈ step, e.MadeOf good) (hb : body.MadeOf good) :
    (forLoop start condition step body).MadeOf good := by
  have hloop : ∀ whole : Statement, whole.MadeOf good →
      (Statement.loop condition whole).MadeOf good := fun whole h => ⟨hc, h⟩
  have hround : ∀ e ∈ step, (Statement.block [some body, some (.evaluate e)]).MadeOf good :=
    fun e hin => ⟨hb, he e hin, trivial⟩
  have hwhole : ∀ s ∈ start, ∀ loop : Statement, loop.MadeOf good →
      (Statement.block [some s, some loop]).MadeOf good :=
    fun s hin loop hl => ⟨hs s hin, hl, trivial⟩
  cases start with
  | none =>
    cases step with
    | none => exact hloop _ hb
    | some e => exact hloop _ (hround e rfl)
  | some s =>
    cases step with
    | none => exact hwhole s rfl _ (hloop _ hb)
    | some e => exact hwhole s rfl _ (hloop _ (hround e rfl))

/-- The entry is made of good tokens, and good tokens are left. -/
def MakesEntry {bound : Nat} (good : Token → Prop) (d : Declared bound) : Prop :=
  (∀ s ∈ d.entry, s.MadeOf good) ∧ ∀ t ∈ d.rest, good t

theorem makesEntry_ofReading {bound : Nat} (h : 0 < bound) {r : Reading bound Statement}
    (hr : r.Makes good (Statement.MadeOf good)) : MakesEntry good (Declared.ofReading h r) := by
  cases r with
  | done s cs rest shorter => exact ⟨forall_mem_some s hr.1, hr.2⟩
  | stuck p cs rest within =>
    refine ⟨?_, fun t ht => hr t ((recover_suffix rest).mem ht)⟩
    rintro _ ⟨⟩

mutual

theorem makesEntry_declaration (t : Token) (after : List Token) (ht : good t)
    (h : ∀ u ∈ after, good u) : MakesEntry good (declaration t after) := by
  rw [declaration]
  split
  · exact makesEntry_ofReading _ ((Reading.makes_past _).mpr (makes_variableDeclaration h))
  · exact makesEntry_ofReading _ (makes_statement (t :: after) (List.forall_mem_cons.mpr ⟨ht, h⟩))
termination_by (after.length + 1, 1)

theorem makes_statement (input : List Token) (h : ∀ t ∈ input, good t) :
    (statement input).Makes good (Statement.MadeOf good) := by
  cases input with
  | nil =>
    rw [statement]
    exact makes_expressionStatement h
  | cons t after =>
    obtain ⟨_, hafter⟩ := List.forall_mem_cons.mp h
    rw [statement]
    split
    · rw [Reading.makes_past]
      exact makes_ifStatement after hafter
    · rw [Reading.makes_past]
      exact makes_printStatement hafter
    · rw [Reading.makes_past]
      exact (makes_block after hafter).map fun _ hb => hb
    · rw [Reading.makes_past]
      exact makes_whileStatement after hafter
    · rw [Reading.makes_past]
      exact makes_forStatement after hafter
    · exact makes_expressionStatement h
termination_by (input.length, 0)

theorem makes_block : ∀ input : List Token, (∀ t ∈ input, good t) →
    (block input).Makes good (Declarations.MadeOf good)
  | [], h => by
    rw [block]
    exact h
  | t :: after, h => by
    obtain ⟨ht, hafter⟩ := List.forall_mem_cons.mp h
    rw [block]
    split
    · exact ⟨trivial, hafter⟩
    · have hlt := (declaration t after).shorter
      have hd := makesEntry_declaration t after ht hafter
      have hlater := makes_block (declaration t after).rest hd.2
      rw [Reading.makes_within, Reading.makes_noting]
      exact hlater.map fun _ hl => Declarations.madeOf_cons.mpr ⟨hd.1, hl⟩
termination_by input => (input.length, 2)

theorem makes_ifStatement (input : List Token) (h : ∀ t ∈ input, good t) :
    (ifStatement input).Makes good (Statement.MadeOf good) := by
  rw [ifStatement]
  refine (Reading.makes_expect _ _ h).andThen fun rest h1 _ _ hrest => ?_
  refine (makes_expression rest hrest).andThen fun rest h2 condition hc hrest => ?_
  refine (Reading.makes_expect _ _ hrest).andThen fun rest h3 _ _ hrest => ?_
  refine (makes_statement rest hrest).andPerhaps fun rest h4 yes hy hrest => ?_
  have hnone : (Statement.branch condition yes none).MadeOf good := ⟨hc, hy⟩
  cases rest with
  | nil => exact ⟨hnone, hrest⟩
  | cons t after =>
    show Reading.Makes good _ (if t.kind = .symbol .elseWord then _ else _)
    split
    · rw [Reading.makes_within]
      exact (makes_statement after (List.forall_mem_cons.mp hrest).2).map fun _ hn => ⟨hc, hy, hn⟩
    · exact ⟨hnone, hrest⟩
termination_by (input.length, 0)
decreasing_by all_goals exact Prod.Lex.left _ _ (by grind)

theorem makes_whileStatement (input : List Token) (h : ∀ t ∈ input, good t) :
    (whileStatement input).Makes good (Statement.MadeOf good) := by
  rw [whileStatement]
  refine (Reading.makes_expect _ _ h).andThen fun rest h1 _ _ hrest => ?_
  refine (makes_expression rest hrest).andThen fun rest h2 condition hc hrest => ?_
  refine (Reading.makes_expect _ _ hrest).andThen fun rest h3 _ _ hrest => ?_
  exact (makes_statement rest hrest).map fun _ hb => ⟨hc, hb⟩
termination_by (input.length, 0)
decreasing_by all_goals exact Prod.Lex.left _ _ (by grind)

theorem makes_forStatement (input : List Token) (h : ∀ t ∈ input, good t) :
    (forStatement input).Makes good (Statement.MadeOf good) := by
  rw [forStatement]
  refine (Reading.makes_expect _ _ h).andThen fun rest h1 _ _ hrest => ?_
  refine (makes_startClause hrest).andThen fun rest h2 start hs hrest => ?_
  refine (makes_conditionClause hrest).andThen fun rest h3 condition hc hrest => ?_
  refine (makes_stepClause hrest).andThen fun rest h4 step he hrest => ?_
  exact (makes_statement rest hrest).map fun _ hb => forLoop_madeOf hs hc he hb
termination_by (input.length, 0)
decreasing_by all_goals exact Prod.Lex.left _ _ (by grind)

end

/-- The trees of a program are made of its tokens. -/
theorem program_madeOf (input : List Token) (h : ∀ t ∈ input, good t) :
    Declarations.MadeOf good (program input).1 := by
  cases input with
  | nil =>
    rw [program]
    trivial
  | cons t after =>
    rw [program_cons]
    have hlt := (declaration t after).shorter
    obtain ⟨ht, hafter⟩ := List.forall_mem_cons.mp h
    obtain ⟨hentry, hrest⟩ := makesEntry_declaration t after ht hafter
    exact Declarations.madeOf_cons.mpr ⟨hentry, program_madeOf (declaration t after).rest hrest⟩
termination_by input.length

end Grammar
end Lox
