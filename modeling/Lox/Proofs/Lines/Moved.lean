/-
# Lines do not matter to reading

Reading a program looks at the kinds of its tokens only. If the tokens are
moved to other lines, the trees are the same with their tokens moved, the
same problems are complained about, and each is blamed on the moved token.

Key definitions: `Token.moved`, `Expression.moved`, `Statement.moved`, `Declarations.moved`,
`Reading.Alike`.
Key theorems: `Grammar.alike_expression`, `Grammar.alike_statement`, `Grammar.program_moved`.
-/
import Lox.Grammar.Program

namespace Lox

/-- The token on the line that `g` gives for its own. -/
def Token.moved (g : Nat → Nat) (t : Token) : Token := { t with line := g t.line }

def Complaint.moved (g : Nat → Nat) (c : Complaint) : Complaint :=
  { c with blamed := c.blamed.map (Token.moved g) }

def Expression.moved (g : Nat → Nat) : Expression → Expression
  | .literal v => .literal v
  | .group inner => .group (inner.moved g)
  | .name token => .name (token.moved g)
  | .assign target value => .assign (target.moved g) (value.moved g)
  | .unary operator operand => .unary (operator.moved g) (operand.moved g)
  | .binary left operator right => .binary (left.moved g) (operator.moved g) (right.moved g)
  | .logical left operator right => .logical (left.moved g) (operator.moved g) (right.moved g)

mutual

def Statement.moved (g : Nat → Nat) : Statement → Statement
  | .print value => .print (value.moved g)
  | .evaluate e => .evaluate (e.moved g)
  | .declare name initializer => .declare (name.moved g) (initializer.map (Expression.moved g))
  | .block body => .block (Declarations.moved g body)
  | .branch condition yes none => .branch (condition.moved g) (yes.moved g) none
  | .branch condition yes (some no) =>
    .branch (condition.moved g) (yes.moved g) (some (no.moved g))
  | .loop condition body => .loop (condition.moved g) (body.moved g)

def Declarations.moved (g : Nat → Nat) : Declarations → Declarations
  | [] => []
  | none :: rest => none :: Declarations.moved g rest
  | some s :: rest => some (s.moved g) :: Declarations.moved g rest

end

theorem Declarations.moved_cons (g : Nat → Nat) (entry : Option Statement) (rest : Declarations) :
    Declarations.moved g (entry :: rest) =
      entry.map (Statement.moved g) :: Declarations.moved g rest := by
  cases entry with
  | none => rw [Declarations.moved]; rfl
  | some s => rw [Declarations.moved]; rfl

/-! ### Readings of the same tokens on other lines -/

/-- The second reading is the first with its value and tokens moved. -/
inductive Reading.Alike {α : Type} (g : Nat → Nat) (move : α → α) {m n : Nat} :
    Reading m α → Reading n α → Prop
  | done (value : α) (cs : List Complaint) (rest : List Token) (shorter : rest.length < m)
      (shorter' : (rest.map (Token.moved g)).length < n) :
      Alike g move (.done value cs rest shorter)
        (.done (move value) (cs.map (Complaint.moved g)) (rest.map (Token.moved g)) shorter')
  | stuck (problem : Problem) (cs : List Complaint) (rest : List Token) (within : rest.length ≤ m)
      (within' : (rest.map (Token.moved g)).length ≤ n) :
      Alike g move (.stuck problem cs rest within)
        (.stuck problem (cs.map (Complaint.moved g)) (rest.map (Token.moved g)) within')

namespace Reading

variable {g : Nat → Nat} {α β : Type} {move : α → α} {move' : β → β} {m m' n n' : Nat}

theorem Alike.within {r : Reading m α} {r' : Reading n α} (h : Alike g move r r') (hm : m ≤ m')
    (hn : n ≤ n') : Alike g move (r.within hm) (r'.within hn) := by
  cases h with
  | done value cs rest _ _ => exact .done value cs rest _ _
  | stuck p cs rest _ _ => exact .stuck p cs rest _ _

theorem Alike.past {r : Reading m α} {r' : Reading n α} (h : Alike g move r r') :
    Alike g move r.past r'.past := h.within _ _

theorem Alike.map {r : Reading m α} {r' : Reading n α} (h : Alike g move r r') {f f' : α → β}
    (hf : ∀ v, f' (move v) = move' (f v)) : Alike g move' (r.map f) (r'.map f') := by
  cases h with
  | done value cs rest s s' =>
    have hd : Alike g move' (.done (f value) cs rest s)
        (.done (move' (f value)) (cs.map (Complaint.moved g)) (rest.map (Token.moved g)) s') :=
      .done ..
    rw [← hf] at hd
    exact hd
  | stuck p cs rest w w' => exact .stuck p cs rest w w'

theorem Alike.noting {r : Reading m α} {r' : Reading n α} (h : Alike g move r r')
    (before : List Complaint) :
    Alike g move (r.noting before) (r'.noting (before.map (Complaint.moved g))) := by
  cases h with
  | done value cs rest s s' =>
    show Alike g move (.done value (before ++ cs) rest s) (.done _ _ _ s')
    rw [← List.map_append]
    exact .done value (before ++ cs) rest s s'
  | stuck p cs rest w w' =>
    show Alike g move (.stuck p (before ++ cs) rest w) (.stuck p _ _ w')
    rw [← List.map_append]
    exact .stuck p (before ++ cs) rest w w'

theorem Alike.andPerhaps {r : Reading m α} {r' : Reading n α} (h : Alike g move r r')
    {next : (rest : List Token) → rest.length < m → α → Reading m β}
    {next' : (rest : List Token) → rest.length < n → α → Reading n β}
    (hn : ∀ rest s s' v, Alike g move' (next rest s v) (next' (rest.map (Token.moved g)) s' (move v))) :
    Alike g move' (r.andPerhaps next) (r'.andPerhaps next') := by
  cases h with
  | done value cs rest s s' => exact (hn rest s s' value).noting cs
  | stuck p cs rest w w' => exact .stuck p cs rest w w'

theorem Alike.andThen {r : Reading m α} {r' : Reading n α} (h : Alike g move r r')
    {next : (rest : List Token) → rest.length < m → α → Reading rest.length β}
    {next' : (rest : List Token) → rest.length < n → α → Reading rest.length β}
    (hn : ∀ rest s s' v, Alike g move' (next rest s v) (next' (rest.map (Token.moved g)) s' (move v))) :
    Alike g move' (r.andThen next) (r'.andThen next') :=
  h.andPerhaps fun rest s s' v => (hn rest s s' v).within _ _

theorem alike_one {value value' : α} (after : List Token) (h : value' = move value) :
    Alike g move (.one value after) (.one value' (after.map (Token.moved g))) := by
  subst h
  exact .done value [] after _ _

theorem alike_stop (problem : Problem) (input : List Token) :
    Alike g move (.stop problem input) (.stop problem (input.map (Token.moved g))) :=
  .stuck problem [] input _ _

end Reading

@[simp] theorem Token.kind_moved (g : Nat → Nat) (t : Token) : (t.moved g).kind = t.kind := rfl

theorem alike_expect (g : Nat → Nat) (s : Symbol) (p : Problem) (input : List Token) :
    (expect s p input).Alike g (Token.moved g) (expect s p (input.map (Token.moved g))) := by
  cases input with
  | nil => exact Reading.alike_stop p []
  | cons t rest =>
    rw [List.map_cons, expect, expect, Token.kind_moved]
    by_cases h : t.kind = .symbol s
    · rw [if_pos h, if_pos h]
      exact Reading.alike_one rest rfl
    · rw [if_neg h, if_neg h]
      exact Reading.alike_stop p (t :: rest)

/-- A phrase that ends with a symbol. -/
theorem Reading.alike_ending {α : Type} {g : Nat → Nat} {move : α → α} {v w : α} (h : w = move v)
    (s : Symbol) (p : Problem) (input : List Token) :
    ((expect s p input).map fun _ => v).Alike g move
      ((expect s p (input.map (Token.moved g))).map fun _ => w) :=
  (alike_expect g s p input).map fun _ => h

/-! ### Expressions -/

theorem Level.owns_moved (g : Nat → Nat) (level : Level) (t : Token) :
    level.owns (t.moved g) = level.owns t := rfl

theorem Token.isSign_moved (g : Nat → Nat) (t : Token) : (t.moved g).isSign = t.isSign := rfl

theorem Level.join_moved (g : Nat → Nat) (level : Level) (l : Expression) (t : Token)
    (r : Expression) :
    (level.join l t r).moved g = level.join (l.moved g) (t.moved g) (r.moved g) := by
  cases level <;> rfl

namespace Grammar

variable {g : Nat → Nat}

/-- What an assignment is read as. -/
theorem alike_assignment (target : Expression) (equals : Token) (value : Expression) {m n : Nat}
    (rest : List Token) (s : rest.length < m) (s' : (rest.map (Token.moved g)).length < n) :
    Reading.Alike g (Expression.moved g)
      (.done (assignment target equals value).1 (assignment target equals value).2 rest s)
      (.done (assignment (target.moved g) (equals.moved g) (value.moved g)).1
        (assignment (target.moved g) (equals.moved g) (value.moved g)).2
        (rest.map (Token.moved g)) s') := by
  cases target <;> exact .done _ _ rest s s'

mutual

theorem alike_expression (input : List Token) :
    (expression input).Alike g (Expression.moved g) (expression (input.map (Token.moved g))) := by
  rw [expression, expression]
  apply (alike_operation Level.ladder input).andPerhaps
  intro rest shorter shorter' target
  cases rest with
  | nil => exact .done target [] [] _ _
  | cons t after =>
    show Reading.Alike _ _ (if t.kind = .symbol .equal then _ else _)
      (if t.kind = .symbol .equal then _ else _)
    by_cases h : t.kind = .symbol .equal
    · rw [if_pos h, if_pos h]
      apply Reading.Alike.within
      apply (alike_expression after).andPerhaps
      intro rest s s' value
      exact alike_assignment target t value rest s s'
    · rw [if_neg h, if_neg h]
      exact .done target [] (t :: after) _ _
termination_by (input.length, Level.ladder.length + 2)
decreasing_by
  · exact Prod.Lex.right _ (Nat.lt_succ_self _)
  · exact Prod.Lex.left _ _ (by grind)

theorem alike_operation (levels : List Level) (input : List Token) :
    (operation levels input).Alike g (Expression.moved g)
      (operation levels (input.map (Token.moved g))) := by
  cases levels with
  | nil =>
    rw [operation, operation]
    exact alike_operand input
  | cons level tighter =>
    rw [operation, operation]
    apply (alike_operation tighter input).andPerhaps
    intro rest shorter shorter' left
    exact alike_operations level tighter left rest shorter shorter'
termination_by (input.length, levels.length + 1)

theorem alike_operations (level : Level) (tighter : List Level) (left : Expression) {m n : Nat} :
    ∀ (input : List Token) (shorter : input.length < m)
      (shorter' : (input.map (Token.moved g)).length < n),
      (operations level tighter left input shorter).Alike g (Expression.moved g)
        (operations level tighter (left.moved g) (input.map (Token.moved g)) shorter')
  | [], _, shorter' => by
    show Reading.Alike g _ _ (operations level tighter (left.moved g) [] shorter')
    rw [operations, operations]
    exact .done left [] [] _ _
  | t :: after, _, shorter' => by
    show Reading.Alike g _ _
      (operations level tighter (left.moved g) (t.moved g :: after.map (Token.moved g)) shorter')
    rw [operations, operations, Level.owns_moved]
    by_cases h : level.owns t = true
    · rw [if_pos h, if_pos h]
      apply Reading.Alike.within
      apply (alike_operation tighter after).andPerhaps
      intro rest s s' right
      rw [← Level.join_moved]
      exact alike_operations level tighter (level.join left t right) rest s s'
    · rw [if_neg h, if_neg h]
      exact .done left [] (t :: after) _ _
termination_by input => (input.length, 0)

theorem alike_operand (input : List Token) :
    (operand input).Alike g (Expression.moved g) (operand (input.map (Token.moved g))) := by
  cases input with
  | nil =>
    rw [List.map_nil, operand]
    exact Reading.alike_stop .expression []
  | cons t after =>
    rw [List.map_cons, operand, operand, Token.isSign_moved]
    by_cases hs : t.isSign = true
    · rw [if_pos hs, if_pos hs]
      have hu (e : Expression) : Expression.unary (t.moved g) (e.moved g) =
          (Expression.unary t e).moved g := rfl
      exact ((alike_operand after).map hu).past
    · rw [if_neg hs, if_neg hs, Token.kind_moved]
      split
      · exact Reading.alike_one after rfl
      · apply Reading.Alike.past
        apply (alike_expression after).andThen
        intro rest _ _ inner
        exact Reading.alike_ending rfl ..
      · split
        · exact Reading.alike_one after rfl
        · exact Reading.alike_stop .expression (t :: after)
termination_by (input.length, 0)

end

/-! ### Statements -/

theorem recoverAfter_moved (previous : Token) : ∀ input : List Token,
    recoverAfter (previous.moved g) (input.map (Token.moved g)) =
      (recoverAfter previous input).map (Token.moved g)
  | [] => rfl
  | t :: rest => by
    rw [List.map_cons, recoverAfter, recoverAfter, Token.kind_moved, Token.kind_moved]
    split
    · rfl
    · exact recoverAfter_moved t rest

theorem recover_moved (input : List Token) :
    recover (input.map (Token.moved g)) = (recover input).map (Token.moved g) := by
  cases input with
  | nil => rfl
  | cons t rest => exact recoverAfter_moved t rest

/-- The second declaration is the first with its entry and tokens moved. -/
structure Declared.Alike (g : Nat → Nat) {m n : Nat} (d : Declared m) (d' : Declared n) : Prop where
  entry : d'.entry = d.entry.map (Statement.moved g)
  complaints : d'.complaints = d.complaints.map (Complaint.moved g)
  rest : d'.rest = d.rest.map (Token.moved g)

theorem alike_ofReading {m n : Nat} (hm : 0 < m) (hn : 0 < n) {r : Reading m Statement}
    {r' : Reading n Statement} (h : r.Alike g (Statement.moved g) r') :
    (Declared.ofReading hm r).Alike g (Declared.ofReading hn r') := by
  cases h with
  | done s cs rest _ _ => exact ⟨rfl, rfl, rfl⟩
  | stuck p cs rest _ _ =>
    refine ⟨rfl, ?_, recover_moved rest⟩
    show cs.map (Complaint.moved g) ++ [_] = (cs ++ [_]).map (Complaint.moved g)
    rw [List.map_append, List.head?_map]
    rfl

theorem alike_initializer (name : Token) (input : List Token) :
    (initializer name input).Alike g (Statement.moved g)
      (initializer (name.moved g) (input.map (Token.moved g))) := by
  cases input with
  | nil => exact Reading.alike_stop .semicolonAfterVariable []
  | cons t after =>
    rw [List.map_cons, initializer, initializer, Token.kind_moved]
    by_cases h : t.kind = .symbol .equal
    · rw [if_pos h, if_pos h]
      apply Reading.Alike.past
      apply (alike_expression after).andThen
      intro rest _ _ value
      exact Reading.alike_ending (by rw [Statement.moved]; rfl) ..
    · rw [if_neg h, if_neg h]
      have hd : Statement.declare (name.moved g) none = (Statement.declare name none).moved g := by
        rw [Statement.moved]
        rfl
      exact Reading.alike_ending hd .semicolon .semicolonAfterVariable (t :: after)

theorem alike_variableDeclaration (input : List Token) :
    (variableDeclaration input).Alike g (Statement.moved g)
      (variableDeclaration (input.map (Token.moved g))) := by
  cases input with
  | nil => exact Reading.alike_stop .variableName []
  | cons name after =>
    rw [List.map_cons, variableDeclaration, variableDeclaration, Token.kind_moved]
    split
    · exact (alike_initializer name after).past
    · exact Reading.alike_stop .variableName (name :: after)

theorem alike_printStatement (input : List Token) :
    (printStatement input).Alike g (Statement.moved g)
      (printStatement (input.map (Token.moved g))) := by
  apply (alike_expression input).andThen
  intro rest _ _ value
  exact Reading.alike_ending (by rw [Statement.moved]) ..

theorem alike_expressionStatement (input : List Token) :
    (expressionStatement input).Alike g (Statement.moved g)
      (expressionStatement (input.map (Token.moved g))) := by
  apply (alike_expression input).andThen
  intro rest _ _ e
  exact Reading.alike_ending (by rw [Statement.moved]) ..

theorem alike_startClause (input : List Token) :
    (startClause input).Alike g (Option.map (Statement.moved g))
      (startClause (input.map (Token.moved g))) := by
  cases input with
  | nil => exact (alike_expressionStatement []).map fun _ => rfl
  | cons t after =>
    rw [List.map_cons, startClause, startClause, Token.kind_moved]
    split
    · exact Reading.alike_one after rfl
    · apply Reading.Alike.past
      exact (alike_variableDeclaration after).map fun _ => rfl
    · exact (alike_expressionStatement (t :: after)).map fun _ => rfl

theorem alike_loopCondition (input : List Token) :
    (loopCondition input).Alike g (Expression.moved g)
      (loopCondition (input.map (Token.moved g))) := by
  apply (alike_expression input).andThen
  intro rest _ _ condition
  exact Reading.alike_ending rfl ..

theorem alike_conditionClause (input : List Token) :
    (conditionClause input).Alike g (Expression.moved g)
      (conditionClause (input.map (Token.moved g))) := by
  cases input with
  | nil => exact alike_loopCondition []
  | cons t after =>
    rw [List.map_cons, conditionClause, conditionClause, Token.kind_moved]
    by_cases h : t.kind = .symbol .semicolon
    · rw [if_pos h, if_pos h]
      exact Reading.alike_one after rfl
    · rw [if_neg h, if_neg h]
      exact alike_loopCondition (t :: after)

theorem alike_loopStep (input : List Token) :
    (loopStep input).Alike g (Expression.moved g) (loopStep (input.map (Token.moved g))) := by
  apply (alike_expression input).andThen
  intro rest _ _ step
  exact Reading.alike_ending rfl ..

theorem alike_stepClause (input : List Token) :
    (stepClause input).Alike g (Option.map (Expression.moved g))
      (stepClause (input.map (Token.moved g))) := by
  cases input with
  | nil => exact (alike_loopStep []).map fun _ => rfl
  | cons t after =>
    rw [List.map_cons, stepClause, stepClause, Token.kind_moved]
    by_cases h : t.kind = .symbol .rightParen
    · rw [if_pos h, if_pos h]
      exact Reading.alike_one after rfl
    · rw [if_neg h, if_neg h]
      exact (alike_loopStep (t :: after)).map fun _ => rfl

theorem forLoop_moved (start : Option Statement) (condition : Expression) (step : Option Expression)
    (body : Statement) :
    forLoop (start.map (Statement.moved g)) (condition.moved g) (step.map (Expression.moved g))
        (body.moved g) = (forLoop start condition step body).moved g := by
  cases start <;> cases step <;> simp [forLoop, Statement.moved, Declarations.moved]

/-- A declaration in a block, and the rest of the block. -/
theorem Declared.Alike.block {m n : Nat} {d : Declared m} {d' : Declared n} (h : d.Alike g d')
    (hb : (block d.rest).Alike g (Declarations.moved g)
      (block (d.rest.map (Token.moved g)))) :
    ((((Grammar.block d.rest).map (d.entry :: ·)).noting d.complaints).within
        (Nat.le_of_lt d.shorter)).Alike g (Declarations.moved g)
      ((((Grammar.block d'.rest).map (d'.entry :: ·)).noting d'.complaints).within
        (Nat.le_of_lt d'.shorter)) := by
  obtain ⟨entry', cs', rest', shorter'⟩ := d'
  obtain ⟨rfl, rfl, rfl⟩ := h
  apply Reading.Alike.within
  apply Reading.Alike.noting
  exact hb.map fun later => (Declarations.moved_cons g d.entry later).symm

mutual

theorem alike_declaration (t : Token) (after : List Token) :
    (declaration t after).Alike g (declaration (t.moved g) (after.map (Token.moved g))) := by
  rw [declaration, declaration, Token.kind_moved]
  by_cases h : t.kind = .symbol .varWord
  · rw [if_pos h, if_pos h]
    exact alike_ofReading _ _ (alike_variableDeclaration after).past
  · rw [if_neg h, if_neg h]
    exact alike_ofReading _ _ (alike_statement (t :: after))
termination_by (after.length + 1, 1)

theorem alike_statement (input : List Token) :
    (statement input).Alike g (Statement.moved g) (statement (input.map (Token.moved g))) := by
  cases input with
  | nil =>
    rw [List.map_nil, statement]
    exact alike_expressionStatement []
  | cons t after =>
    rw [List.map_cons, statement, statement, Token.kind_moved]
    split
    · exact (alike_ifStatement after).past
    · exact (alike_printStatement after).past
    · exact ((alike_block after).map fun body => by rw [Statement.moved]).past
    · exact (alike_whileStatement after).past
    · exact (alike_forStatement after).past
    · exact alike_expressionStatement (t :: after)
termination_by (input.length, 0)

theorem alike_block (input : List Token) :
    (block input).Alike g (Declarations.moved g) (block (input.map (Token.moved g))) := by
  cases input with
  | nil =>
    rw [List.map_nil, block]
    exact Reading.alike_stop .braceAfterBlock []
  | cons t after =>
    rw [List.map_cons, block, block, Token.kind_moved]
    by_cases h : t.kind = .symbol .rightBrace
    · rw [if_pos h, if_pos h]
      exact Reading.alike_one after (by rw [Declarations.moved])
    · rw [if_neg h, if_neg h]
      have hlt := (declaration t after).shorter
      exact (alike_declaration t after).block (alike_block (declaration t after).rest)
termination_by (input.length, 2)

theorem alike_ifStatement (input : List Token) :
    (ifStatement input).Alike g (Statement.moved g) (ifStatement (input.map (Token.moved g))) := by
  rw [ifStatement, ifStatement]
  apply (alike_expect g .leftParen .parenAfterIf input).andThen
  intro rest h1 _ _
  apply (alike_expression rest).andThen
  intro rest h2 _ condition
  apply (alike_expect g .rightParen .parenAfterIfCondition rest).andThen
  intro rest h3 _ _
  apply (alike_statement rest).andPerhaps
  intro rest h4 _ yes
  have hn : Statement.branch (condition.moved g) (yes.moved g) none =
      (Statement.branch condition yes none).moved g := by rw [Statement.moved]
  cases rest with
  | nil =>
    show Reading.Alike g (Statement.moved g) _
      (.done (Statement.branch (condition.moved g) (yes.moved g) none) [] [] _)
    rw [hn]
    exact .done _ [] [] _ _
  | cons t after =>
    show Reading.Alike _ _ (if t.kind = .symbol .elseWord then _ else _)
      (if t.kind = .symbol .elseWord then _ else _)
    by_cases h : t.kind = .symbol .elseWord
    · rw [if_pos h, if_pos h]
      apply Reading.Alike.within
      exact (alike_statement after).map fun no => by rw [Statement.moved]
    · rw [if_neg h, if_neg h, hn]
      exact .done _ [] (t :: after) _ _
termination_by (input.length, 0)
decreasing_by all_goals exact Prod.Lex.left _ _ (by grind)

theorem alike_whileStatement (input : List Token) :
    (whileStatement input).Alike g (Statement.moved g)
      (whileStatement (input.map (Token.moved g))) := by
  rw [whileStatement, whileStatement]
  apply (alike_expect g .leftParen .parenAfterWhile input).andThen
  intro rest h1 _ _
  apply (alike_expression rest).andThen
  intro rest h2 _ condition
  apply (alike_expect g .rightParen .parenAfterCondition rest).andThen
  intro rest h3 _ _
  exact (alike_statement rest).map fun body => by rw [Statement.moved]
termination_by (input.length, 0)

theorem alike_forStatement (input : List Token) :
    (forStatement input).Alike g (Statement.moved g)
      (forStatement (input.map (Token.moved g))) := by
  rw [forStatement, forStatement]
  apply (alike_expect g .leftParen .parenAfterFor input).andThen
  intro rest h1 _ _
  apply (alike_startClause rest).andThen
  intro rest h2 _ start
  apply (alike_conditionClause rest).andThen
  intro rest h3 _ condition
  apply (alike_stepClause rest).andThen
  intro rest h4 _ step
  exact (alike_statement rest).map fun body => forLoop_moved start condition step body
termination_by (input.length, 0)

end

/-- A program on other lines is the same program on those lines. -/
theorem program_moved (g : Nat → Nat) (input : List Token) :
    program (input.map (Token.moved g)) =
      (Declarations.moved g (program input).1, (program input).2.map (Complaint.moved g)) := by
  cases input with
  | nil => simp [program, Declarations.moved]
  | cons t after =>
    obtain ⟨he, hc, hr⟩ := @alike_declaration g t after
    have hlt := (declaration t after).shorter
    have hp := program_moved g (declaration t after).rest
    rw [List.map_cons, program_cons, program_cons, he, hc, hr, hp, Declarations.moved_cons,
      List.map_append]
termination_by input.length

end Grammar
end Lox
