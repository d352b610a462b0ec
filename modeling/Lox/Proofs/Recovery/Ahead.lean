/-
# Tokens ahead

A phrase is read from the front of its input, and what stands behind the place
where reading came to an end plays no part. So tokens put behind an input
change nothing, unless all of it was used up and the phrase can go on: an
expression with an operator, an `if` with an `else`. A declaration in a block
that is left out is left out the same, since recovery stops where it stops.

Key definitions: `Reading.Before`, `Grammar.Declared.Before`.
Key theorems: `Reading.Before.andPerhaps`, `Grammar.before_expression`,
`Grammar.before_statement`, `Grammar.before_declaration`.
-/
import Lox.Proofs.Grammar.Statements

namespace Lox

/-! ### Readings with more tokens behind them -/

/-- The second reading is the first with `more` behind its input: it is known to be the same unless
the first one used up the input. If the phrase is one that `ends`, it is the same then too when it
came to its value. What the readings have in common they do not blame on the end of the input. -/
inductive Reading.Before {α : Type} (more : List Token) (ends : Prop) {m n : Nat} :
    Reading m α → Reading n α → Prop
  | done (value : α) {cs : List Complaint} (rest : List Token) (shorter : rest.length < m)
      (shorter' : (rest ++ more).length < n) (hc : ∀ c ∈ cs, c.blamed ≠ none) :
      Before more ends (.done value cs rest shorter) (.done value cs (rest ++ more) shorter')
  | stuck (problem : Problem) {cs : List Complaint} (rest : List Token) (within : rest.length ≤ m)
      (within' : (rest ++ more).length ≤ n) (hc : ∀ c ∈ cs, c.blamed ≠ none) :
      Before more ends (.stuck problem cs rest within) (.stuck problem cs (rest ++ more) within')
  | usedUp (value : α) (cs : List Complaint) (shorter : [].length < m) (other : Reading n α)
      (h : ¬ ends) : Before more ends (.done value cs [] shorter) other
  | cutOff (problem : Problem) (cs : List Complaint) (within : [].length ≤ m) (other : Reading n α) :
      Before more ends (.stuck problem cs [] within) other

namespace Reading

variable {more : List Token} {ends ends' : Prop} {α β : Type} {m m' n n' : Nat}

/-- Nothing is left of the input. -/
def Spent : Reading n α → Prop
  | done _ _ rest _ => rest = []
  | stuck _ _ rest _ => rest = []

theorem Spent.before {r : Reading m α} (hr : r.Spent) (h : ¬ ends) (r' : Reading n α) :
    Before more ends r r' := by
  cases r with
  | done value cs rest s =>
    obtain rfl : rest = [] := hr
    exact .usedUp value cs s r' h
  | stuck p cs rest w =>
    obtain rfl : rest = [] := hr
    exact .cutOff p cs w r'

theorem Spent.noting {r : Reading n α} (hr : r.Spent) (before : List Complaint) :
    (r.noting before).Spent := by
  cases r with
  | done value cs rest s => exact hr
  | stuck p cs rest w => exact hr

/-- Of no tokens nothing is read. -/
theorem exists_of_zero (r : Reading 0 α) : ∃ p cs w, r = .stuck p cs [] w := by
  cases r with
  | done value cs rest s => exact absurd s (Nat.not_lt_zero _)
  | stuck p cs rest w =>
    obtain rfl : rest = [] := List.length_eq_zero_iff.mp (Nat.le_zero.mp w)
    exact ⟨p, cs, w, rfl⟩

theorem before_nil (r : Reading 0 α) (r' : Reading n α) : Before more ends r r' := by
  obtain ⟨p, cs, w, rfl⟩ := exists_of_zero r
  exact .cutOff p cs w r'

theorem Before.within {r : Reading m α} {r' : Reading n α} (h : Before more ends r r') (hm : m ≤ m')
    (hn : n ≤ n') : Before more ends (r.within hm) (r'.within hn) := by
  cases h with
  | done value rest _ _ hc => exact .done value rest _ _ hc
  | stuck p rest _ _ hc => exact .stuck p rest _ _ hc
  | usedUp value cs _ _ he => exact .usedUp value cs _ _ he
  | cutOff p cs _ _ => exact .cutOff p cs _ _

theorem Before.past {r : Reading m α} {r' : Reading n α} (h : Before more ends r r') :
    Before more ends r.past r'.past := h.within _ _

theorem Before.map {r : Reading m α} {r' : Reading n α} (h : Before more ends r r') (f : α → β) :
    Before more ends (r.map f) (r'.map f) := by
  cases h with
  | done value rest s s' hc => exact .done (f value) rest s s' hc
  | stuck p rest w w' hc => exact .stuck p rest w w' hc
  | usedUp value cs s _ he => exact .usedUp (f value) cs s _ he
  | cutOff p cs w _ => exact .cutOff p cs w _

theorem Before.noting {r : Reading m α} {r' : Reading n α} (h : Before more ends r r')
    {before : List Complaint} (hb : ∀ c ∈ before, c.blamed ≠ none) :
    Before more ends (r.noting before) (r'.noting before) := by
  cases h with
  | done value rest s s' hc =>
    exact .done value rest s s' (List.forall_mem_append.mpr ⟨hb, hc⟩)
  | stuck p rest w w' hc =>
    exact .stuck p rest w w' (List.forall_mem_append.mpr ⟨hb, hc⟩)
  | usedUp value cs s _ he => exact .usedUp value (before ++ cs) s _ he
  | cutOff p cs w _ => exact .cutOff p (before ++ cs) w _

/-- A phrase that ends by itself ends whatever is looked for behind it. -/
theorem Before.of_ending {r : Reading m α} {r' : Reading n α} (h : Before more True r r') :
    Before more ends r r' := by
  cases h with
  | done value rest s s' hc => exact .done value rest s s' hc
  | stuck p rest w w' hc => exact .stuck p rest w w' hc
  | usedUp _ _ _ _ he => exact absurd trivial he
  | cutOff p cs w _ => exact .cutOff p cs w _

/-- If the first phrase can go on, then so can one that it is the whole of. -/
theorem Before.andPerhaps {r : Reading m α} {r' : Reading n α} (h : Before more ends r r')
    {next : (rest : List Token) → rest.length < m → α → Reading m β}
    {next' : (rest : List Token) → rest.length < n → α → Reading n β}
    (hn : ∀ rest s s' v, Before more ends' (next rest s v) (next' (rest ++ more) s' v))
    (hs : ¬ ends → ¬ ends' ∧ ∀ s v, (next [] s v).Spent) :
    Before more ends' (r.andPerhaps next) (r'.andPerhaps next') := by
  cases h with
  | done value rest s s' hc => exact (hn rest s s' value).noting hc
  | stuck p rest w w' hc => exact .stuck p rest w w' hc
  | usedUp value cs s _ he =>
    obtain ⟨he', hspent⟩ := hs he
    exact ((hspent s value).noting cs).before he' _
  | cutOff p cs w _ => exact .cutOff p cs w _

theorem Before.andThen {r : Reading m α} {r' : Reading n α} (h : Before more ends r r')
    {next : (rest : List Token) → rest.length < m → α → Reading rest.length β}
    {next' : (rest : List Token) → rest.length < n → α → Reading rest.length β}
    (hn : ∀ rest s s' v, Before more ends' (next rest s v) (next' (rest ++ more) s' v)) :
    Before more ends' (r.andThen next) (r'.andThen next') := by
  cases h with
  | done value rest s s' hc => exact ((hn rest s s' value).within _ _).noting hc
  | stuck p rest w w' hc => exact .stuck p rest w w' hc
  | usedUp value cs s _ he =>
    obtain ⟨p, cs', w, hz⟩ := exists_of_zero (next [] s value)
    show Before more ends' (((next [] s value).within (Nat.le_of_lt s)).noting cs) _
    rw [hz]
    exact .cutOff p (cs ++ cs') _ _
  | cutOff p cs w _ => exact .cutOff p cs w _

theorem before_one (value : α) (after : List Token) :
    Before more ends (.one value after) (.one value (after ++ more)) :=
  .done value after _ _ (by simp)

theorem before_stop (problem : Problem) (t : Token) (after : List Token) :
    Before more ends (stop problem (t :: after) : Reading _ α) (stop problem (t :: after ++ more)) :=
  .stuck problem (t :: after) _ _ (by simp)

end Reading

variable {more : List Token} {ends : Prop}

theorem before_expect (s : Symbol) (p : Problem) (input : List Token) :
    (expect s p input).Before more True (expect s p (input ++ more)) := by
  cases input with
  | nil => exact Reading.before_nil _ _
  | cons t rest =>
    rw [List.cons_append, expect, expect]
    by_cases h : t.kind = .symbol s
    · rw [if_pos h, if_pos h]
      exact Reading.before_one t rest
    · rw [if_neg h, if_neg h]
      exact Reading.before_stop p t rest

namespace Grammar

/-! ### Expressions -/

/-- An assignment is complained about where its `=` is. -/
theorem blamed_assignment (target : Expression) (equals : Token) (value : Expression) :
    ∀ c ∈ (assignment target equals value).2, c.blamed ≠ none := by
  cases target <;> simp [assignment]

mutual

theorem before_expression (input : List Token) :
    (expression input).Before more False (expression (input ++ more)) := by
  rw [expression, expression]
  refine (before_operation Level.ladder input).andPerhaps (fun rest shorter shorter' target => ?_)
    fun _ => ⟨not_false, fun _ _ => rfl⟩
  cases rest with
  | nil => exact .usedUp target [] _ _ not_false
  | cons t after =>
    show Reading.Before more False (if t.kind = .symbol .equal then _ else _)
      (if t.kind = .symbol .equal then _ else _)
    by_cases h : t.kind = .symbol .equal
    · rw [if_pos h, if_pos h]
      apply Reading.Before.within
      refine (before_expression after).andPerhaps (fun rest s s' value => ?_)
        fun _ => ⟨not_false, fun _ _ => rfl⟩
      exact .done _ rest s s' (blamed_assignment target t value)
    · rw [if_neg h, if_neg h]
      exact .done target (t :: after) _ _ (by simp)
termination_by (input.length, Level.ladder.length + 2)
decreasing_by
  · exact Prod.Lex.right _ (Nat.lt_succ_self _)
  · exact Prod.Lex.left _ _ (by grind)

theorem before_operation (levels : List Level) (input : List Token) :
    (operation levels input).Before more False (operation levels (input ++ more)) := by
  cases levels with
  | nil =>
    rw [operation, operation]
    exact (before_operand input).of_ending
  | cons level tighter =>
    rw [operation, operation]
    refine (before_operation tighter input).andPerhaps (fun rest shorter shorter' left => ?_)
      fun _ => ⟨not_false, fun _ _ => by rw [operations]; rfl⟩
    exact before_operations level tighter left rest shorter shorter'
termination_by (input.length, levels.length + 1)

theorem before_operations (level : Level) (tighter : List Level) (left : Expression) {m n : Nat} :
    ∀ (input : List Token) (shorter : input.length < m) (shorter' : (input ++ more).length < n),
      (operations level tighter left input shorter).Before more False
        (operations level tighter left (input ++ more) shorter')
  | [], _, _ => by
    rw [operations]
    exact .usedUp left [] _ _ not_false
  | t :: after, _, shorter' => by
    show Reading.Before more False _ (operations level tighter left (t :: (after ++ more)) shorter')
    rw [operations, operations]
    by_cases h : level.owns t = true
    · rw [if_pos h, if_pos h]
      apply Reading.Before.within
      refine (before_operation tighter after).andPerhaps (fun rest s s' right => ?_)
        fun _ => ⟨not_false, fun _ _ => by rw [operations]; rfl⟩
      exact before_operations level tighter (level.join left t right) rest s s'
    · rw [if_neg h, if_neg h]
      exact .done left (t :: after) _ _ (by simp)
termination_by input => (input.length, 0)

theorem before_operand (input : List Token) :
    (operand input).Before more True (operand (input ++ more)) := by
  cases input with
  | nil =>
    rw [operand]
    exact Reading.before_nil _ _
  | cons t after =>
    rw [List.cons_append, operand, operand]
    by_cases hs : t.isSign = true
    · rw [if_pos hs, if_pos hs]
      exact ((before_operand after).map _).past
    · rw [if_neg hs, if_neg hs]
      split
      · exact Reading.before_one _ after
      · apply Reading.Before.past
        apply (before_expression after).andThen
        intro rest _ _ inner
        exact (before_expect ..).map _
      · split
        · exact Reading.before_one _ after
        · exact Reading.before_stop .expression t after
termination_by (input.length, 0)

end

/-! ### Statements without parts -/

theorem before_initializer (name : Token) (input : List Token) :
    (initializer name input).Before more True (initializer name (input ++ more)) := by
  cases input with
  | nil => exact Reading.before_nil _ _
  | cons t after =>
    rw [List.cons_append, initializer, initializer]
    by_cases h : t.kind = .symbol .equal
    · rw [if_pos h, if_pos h]
      apply Reading.Before.past
      apply (before_expression after).andThen
      intro rest _ _ value
      exact (before_expect ..).map _
    · rw [if_neg h, if_neg h]
      exact (before_expect .semicolon .semicolonAfterVariable (t :: after)).map _

theorem before_variableDeclaration (input : List Token) :
    (variableDeclaration input).Before more True (variableDeclaration (input ++ more)) := by
  cases input with
  | nil => exact Reading.before_nil _ _
  | cons name after =>
    rw [List.cons_append, variableDeclaration, variableDeclaration]
    split
    · exact (before_initializer name after).past
    · exact Reading.before_stop .variableName name after

theorem before_printStatement (input : List Token) :
    (printStatement input).Before more True (printStatement (input ++ more)) := by
  apply (before_expression input).andThen
  intro rest _ _ value
  exact (before_expect ..).map _

theorem before_expressionStatement (input : List Token) :
    (expressionStatement input).Before more True (expressionStatement (input ++ more)) := by
  apply (before_expression input).andThen
  intro rest _ _ e
  exact (before_expect ..).map _

theorem before_startClause (input : List Token) :
    (startClause input).Before more True (startClause (input ++ more)) := by
  cases input with
  | nil => exact Reading.before_nil _ _
  | cons t after =>
    rw [List.cons_append, startClause, startClause]
    split
    · exact Reading.before_one none after
    · exact ((before_variableDeclaration after).map some).past
    · exact (before_expressionStatement (t :: after)).map some

theorem before_loopCondition (input : List Token) :
    (loopCondition input).Before more True (loopCondition (input ++ more)) := by
  apply (before_expression input).andThen
  intro rest _ _ condition
  exact (before_expect ..).map _

theorem before_conditionClause (input : List Token) :
    (conditionClause input).Before more True (conditionClause (input ++ more)) := by
  cases input with
  | nil => exact Reading.before_nil _ _
  | cons t after =>
    rw [List.cons_append, conditionClause, conditionClause]
    by_cases h : t.kind = .symbol .semicolon
    · rw [if_pos h, if_pos h]
      exact Reading.before_one _ after
    · rw [if_neg h, if_neg h]
      exact before_loopCondition (t :: after)

theorem before_loopStep (input : List Token) :
    (loopStep input).Before more True (loopStep (input ++ more)) := by
  apply (before_expression input).andThen
  intro rest _ _ step
  exact (before_expect ..).map _

theorem before_stepClause (input : List Token) :
    (stepClause input).Before more True (stepClause (input ++ more)) := by
  cases input with
  | nil => exact Reading.before_nil _ _
  | cons t after =>
    rw [List.cons_append, stepClause, stepClause]
    by_cases h : t.kind = .symbol .rightParen
    · rw [if_pos h, if_pos h]
      exact Reading.before_one none after
    · rw [if_neg h, if_neg h]
      exact (before_loopStep (t :: after)).map some

/-! ### Declarations -/

theorem recoverAfter_append (previous : Token) : ∀ input : List Token,
    recoverAfter previous input ≠ [] →
    recoverAfter previous (input ++ more) = recoverAfter previous input ++ more
  | [], h => absurd rfl h
  | t :: rest, h => by
    rw [List.cons_append, recoverAfter, recoverAfter]
    rw [recoverAfter] at h
    split
    · rfl
    · rename_i ht
      rw [if_neg ht] at h
      exact recoverAfter_append t rest h

/-- Recovery that stops before the end of the input stops there. -/
theorem recover_append {input : List Token} (h : recover input ≠ []) :
    recover (input ++ more) = recover input ++ more := by
  cases input with
  | nil => exact absurd rfl h
  | cons t rest => exact recoverAfter_append t rest h

/-- The second declaration is the first with `more` behind its input, unless that was used up. -/
def Declared.Before (more : List Token) {m n : Nat} (d : Declared m) (d' : Declared n) : Prop :=
  d.rest ≠ [] → d'.entry = d.entry ∧ d'.complaints = d.complaints ∧ d'.rest = d.rest ++ more ∧
    ∀ c ∈ d.complaints, c.blamed ≠ none

theorem before_ofReading {m n : Nat} (hm : 0 < m) (hn : 0 < n) {r : Reading m Statement}
    {r' : Reading n Statement} (h : r.Before more ends r') :
    (Declared.ofReading hm r).Before more (Declared.ofReading hn r') := by
  intro hne
  cases h with
  | done s rest _ _ hc => exact ⟨rfl, rfl, rfl, hc⟩
  | @stuck p cs rest _ _ hc =>
    have hr : recover rest ≠ [] := hne
    cases rest with
    | nil => exact absurd rfl hr
    | cons t after =>
      refine ⟨rfl, rfl, recover_append hr, ?_⟩
      exact List.forall_mem_append.mpr ⟨hc, by simp⟩
  | usedUp s cs _ _ _ => exact absurd rfl hne
  | cutOff p cs _ _ => exact absurd rfl hne

/-- A block that goes on after a declaration. -/
theorem Declared.Before.block {m n : Nat} {d : Declared m} {d' : Declared n} (h : d.Before more d')
    (hb : (block d.rest).Before more True (block (d.rest ++ more))) :
    ((((Grammar.block d.rest).map (d.entry :: ·)).noting d.complaints).within
        (Nat.le_of_lt d.shorter)).Before more True
      ((((Grammar.block d'.rest).map (d'.entry :: ·)).noting d'.complaints).within
        (Nat.le_of_lt d'.shorter)) := by
  by_cases hr : d.rest = []
  · -- the brace that closes the block is still to come
    obtain ⟨entry, cs, rest, shorter⟩ := d
    obtain rfl : rest = [] := hr
    show Reading.Before more True
      ((((Grammar.block []).map (entry :: ·)).noting cs).within (Nat.le_of_lt shorter)) _
    rw [Grammar.block]
    exact .cutOff ..
  · obtain ⟨entry', cs', rest', shorter'⟩ := d'
    obtain ⟨rfl, rfl, rfl, hc⟩ := h hr
    exact ((hb.map _).noting hc).within _ _

end Grammar

theorem NoElse.ne {t : Token} {after : List Token} (h : NoElse (t :: after)) :
    t.kind ≠ .symbol .elseWord := h t rfl

namespace Grammar

mutual

theorem before_declaration (t : Token) (after : List Token) :
    (declaration t after).Before more (declaration t (after ++ more)) := by
  rw [declaration, declaration]
  by_cases h : t.kind = .symbol .varWord
  · rw [if_pos h, if_pos h]
    exact before_ofReading _ _ (before_variableDeclaration after).past
  · rw [if_neg h, if_neg h]
    exact before_ofReading _ _ (before_statement (t :: after))
termination_by (after.length + 1, 1)

theorem before_statement (input : List Token) :
    (statement input).Before more (NoElse more) (statement (input ++ more)) := by
  cases input with
  | nil => exact Reading.before_nil _ _
  | cons t after =>
    rw [List.cons_append, statement, statement]
    split
    · exact (before_ifStatement after).past
    · exact (before_printStatement after).past.of_ending
    · exact ((before_block after).map _).past.of_ending
    · exact (before_whileStatement after).past
    · exact (before_forStatement after).past
    · exact (before_expressionStatement (t :: after)).of_ending
termination_by (input.length, 0)

theorem before_block (input : List Token) :
    (block input).Before more True (block (input ++ more)) := by
  cases input with
  | nil => exact Reading.before_nil _ _
  | cons t after =>
    rw [List.cons_append, block, block]
    by_cases h : t.kind = .symbol .rightBrace
    · rw [if_pos h, if_pos h]
      exact Reading.before_one [] after
    · rw [if_neg h, if_neg h]
      have hlt := (declaration t after).shorter
      exact (before_declaration t after).block (before_block (declaration t after).rest)
termination_by (input.length, 2)

theorem before_ifStatement (input : List Token) :
    (ifStatement input).Before more (NoElse more) (ifStatement (input ++ more)) := by
  rw [ifStatement, ifStatement]
  apply (before_expect .leftParen .parenAfterIf input).andThen
  intro rest h1 _ _
  apply (before_expression rest).andThen
  intro rest h2 _ condition
  apply (before_expect .rightParen .parenAfterIfCondition rest).andThen
  intro rest h3 _ _
  refine (before_statement rest).andPerhaps (fun rest h4 _ yes => ?_) fun he => ⟨he, fun _ _ => rfl⟩
  cases rest with
  | nil =>
    by_cases he : NoElse more
    · cases more with
      | nil => exact .done _ [] _ _ (by simp)
      | cons t after =>
        show Reading.Before _ _ _ (if t.kind = .symbol .elseWord then _ else _)
        rw [if_neg he.ne]
        exact .done _ [] _ _ (by simp)
    · exact .usedUp _ [] _ _ he
  | cons t after =>
    show Reading.Before _ _ (if t.kind = .symbol .elseWord then _ else _)
      (if t.kind = .symbol .elseWord then _ else _)
    by_cases h : t.kind = .symbol .elseWord
    · rw [if_pos h, if_pos h]
      apply Reading.Before.within
      exact (before_statement after).map _
    · rw [if_neg h, if_neg h]
      exact .done _ (t :: after) _ _ (by simp)
termination_by (input.length, 0)
decreasing_by all_goals exact Prod.Lex.left _ _ (by grind)

theorem before_whileStatement (input : List Token) :
    (whileStatement input).Before more (NoElse more) (whileStatement (input ++ more)) := by
  rw [whileStatement, whileStatement]
  apply (before_expect .leftParen .parenAfterWhile input).andThen
  intro rest h1 _ _
  apply (before_expression rest).andThen
  intro rest h2 _ condition
  apply (before_expect .rightParen .parenAfterCondition rest).andThen
  intro rest h3 _ _
  exact (before_statement rest).map _
termination_by (input.length, 0)

theorem before_forStatement (input : List Token) :
    (forStatement input).Before more (NoElse more) (forStatement (input ++ more)) := by
  rw [forStatement, forStatement]
  apply (before_expect .leftParen .parenAfterFor input).andThen
  intro rest h1 _ _
  apply (before_startClause rest).andThen
  intro rest h2 _ start
  apply (before_conditionClause rest).andThen
  intro rest h3 _ condition
  apply (before_stepClause rest).andThen
  intro rest h4 _ step
  exact (before_statement rest).map _
termination_by (input.length, 0)

end

end Grammar
end Lox
