/-
# Trees that are read are well formed

Whatever the tokens, and with or without complaints, the trees that are read
have operators and names of the right kinds only, and declarations stand in
lists only, never directly under an `if` or in a loop.

Key definitions: `Expression.WellFormed`, `Statement.WellFormed`, `Reading.Gives`.
Key theorems: `Reading.gives_andPerhaps`, `Grammar.gives_expression`, `Grammar.gives_statement`,
`parse_wellFormed`.
-/
import Lox.Grammar.Program

namespace Lox

def Token.IsName (t : Token) : Prop := ∃ name, t.kind = .identifier name

/-- The operators that compute with two values, unlike `or` and `and`. -/
def Symbol.binary : List Symbol :=
  [minus, plus, slash, star, bangEqual, equalEqual, greater, greaterEqual, less, lessEqual]

def Token.IsBinary (t : Token) : Prop := ∃ s ∈ Symbol.binary, t.kind = .symbol s

/-- Operators and names are tokens of their kinds. -/
def Expression.WellFormed : Expression → Prop
  | .literal _ => True
  | .group inner => inner.WellFormed
  | .name token => token.IsName
  | .assign target value => target.IsName ∧ value.WellFormed
  | .unary operator operand =>
    (operator.kind = .symbol .bang ∨ operator.kind = .symbol .minus) ∧ operand.WellFormed
  | .binary left operator right => left.WellFormed ∧ operator.IsBinary ∧ right.WellFormed
  | .logical left operator right =>
    left.WellFormed ∧ (operator.kind = .symbol .orWord ∨ operator.kind = .symbol .andWord) ∧
      right.WellFormed

def Statement.isDeclaration : Statement → Bool
  | .declare .. => true
  | _ => false

mutual

/-- The expressions are well formed, and no branch and no loop has a declaration for its body. -/
def Statement.WellFormed : Statement → Prop
  | .print value => value.WellFormed
  | .evaluate e => e.WellFormed
  | .declare name none => name.IsName
  | .declare name (some e) => name.IsName ∧ e.WellFormed
  | .block body => Declarations.WellFormed body
  | .branch condition yes none =>
    condition.WellFormed ∧ yes.WellFormed ∧ yes.isDeclaration = false
  | .branch condition yes (some no) =>
    condition.WellFormed ∧ (yes.WellFormed ∧ yes.isDeclaration = false) ∧
      no.WellFormed ∧ no.isDeclaration = false
  | .loop condition body =>
    condition.WellFormed ∧ body.WellFormed ∧ body.isDeclaration = false

def Declarations.WellFormed : Declarations → Prop
  | [] => True
  | none :: rest => Declarations.WellFormed rest
  | some s :: rest => s.WellFormed ∧ Declarations.WellFormed rest

end

/-- What a branch or a loop may have for its body. -/
def Statement.IsBody (s : Statement) : Prop := s.WellFormed ∧ s.isDeclaration = false

theorem Declarations.wellFormed_cons {entry : Option Statement} {rest : Declarations} :
    Declarations.WellFormed (entry :: rest) ↔
      (∀ s ∈ entry, s.WellFormed) ∧ Declarations.WellFormed rest := by
  cases entry with
  | none => simp [Declarations.WellFormed]
  | some s => simp [Declarations.WellFormed]

/-! ### What readings give -/

namespace Reading

variable {m n : Nat} {α β : Type} {P : α → Prop} {Q : β → Prop}

/-- The value the reading comes to, if it comes to one, is as `P` says. -/
def Gives (P : α → Prop) : Reading n α → Prop
  | done value _ _ _ => P value
  | stuck .. => True

theorem gives_within (h : m ≤ n) {r : Reading m α} (hr : r.Gives P) : (r.within h).Gives P := by
  cases r with
  | done value cs rest shorter => exact hr
  | stuck p cs rest w => trivial

theorem gives_map {f : α → β} {r : Reading n α} (hr : r.Gives P) (hf : ∀ v, P v → Q (f v)) :
    (r.map f).Gives Q := by
  cases r with
  | done value cs rest shorter => exact hf value hr
  | stuck p cs rest w => trivial

theorem gives_noting (before : List Complaint) {r : Reading n α} (hr : r.Gives P) :
    (r.noting before).Gives P := by
  cases r with
  | done value cs rest shorter => exact hr
  | stuck p cs rest w => trivial

/-- What follows a phrase may count on what the phrase gives. -/
theorem gives_andPerhaps {r : Reading n α}
    {next : (rest : List Token) → rest.length < n → α → Reading n β} (hr : r.Gives P)
    (hn : ∀ rest shorter v, P v → (next rest shorter v).Gives Q) : (r.andPerhaps next).Gives Q := by
  cases r with
  | done value cs rest shorter => exact gives_noting cs (hn rest shorter value hr)
  | stuck p cs rest w => trivial

theorem gives_andThen {r : Reading n α}
    {next : (rest : List Token) → rest.length < n → α → Reading rest.length β} (hr : r.Gives P)
    (hn : ∀ rest shorter v, P v → (next rest shorter v).Gives Q) : (r.andThen next).Gives Q :=
  gives_andPerhaps hr fun rest shorter v hv => gives_within _ (hn rest shorter v hv)

theorem gives_expect (s : Symbol) (p : Problem) (input : List Token) :
    (expect s p input).Gives fun _ => True := by
  cases expect s p input <;> trivial

/-- Only the value of the phrase counts when a symbol ends it. -/
theorem gives_ending {w : β} (hw : Q w) (s : Symbol) (p : Problem) (input : List Token) :
    ((expect s p input).map fun _ => w).Gives Q :=
  gives_map (gives_expect s p input) fun _ _ => hw

end Reading

/-! ### Expressions -/

theorem Level.join_eq (level : Level) :
    (level.join = .logical ∧ ∀ s ∈ level.symbols, s = .orWord ∨ s = .andWord) ∨
      (level.join = .binary ∧ ∀ s ∈ level.symbols, s ∈ Symbol.binary) := by
  cases level with
  | or => exact .inl ⟨rfl, by decide⟩
  | and => exact .inl ⟨rfl, by decide⟩
  | equality => exact .inr ⟨rfl, by decide⟩
  | comparison => exact .inr ⟨rfl, by decide⟩
  | term => exact .inr ⟨rfl, by decide⟩
  | factor => exact .inr ⟨rfl, by decide⟩

theorem Level.join_wellFormed {level : Level} {t : Token} {l r : Expression}
    (ht : level.owns t = true) (hl : l.WellFormed) (hr : r.WellFormed) :
    (level.join l t r).WellFormed := by
  have hs : ∃ s ∈ level.symbols, t.kind = .symbol s := by
    unfold owns at ht
    split at ht
    · rename_i s hk
      exact ⟨s, List.contains_iff_mem.mp ht, hk⟩
    · cases ht
  obtain ⟨s, hs, hk⟩ := hs
  rcases level.join_eq with ⟨hj, h⟩ | ⟨hj, h⟩
  · rw [hj]
    exact ⟨hl, (h s hs).imp (fun h => by rw [hk, h]) (fun h => by rw [hk, h]), hr⟩
  · rw [hj]
    exact ⟨hl, ⟨s, h s hs, hk⟩, hr⟩

namespace Grammar

theorem assignment_wellFormed {target value : Expression} (equals : Token)
    (ht : target.WellFormed) (hv : value.WellFormed) :
    (assignment target equals value).1.WellFormed := by
  cases target with
  | name token => exact ⟨ht, hv⟩
  | _ => exact ht

mutual

theorem gives_expression (input : List Token) :
    (expression input).Gives Expression.WellFormed := by
  rw [expression]
  apply Reading.gives_andPerhaps (gives_operation Level.ladder input)
  intro rest shorter target ht
  cases rest with
  | nil => exact ht
  | cons t after =>
    show Reading.Gives _ (if t.kind = .symbol .equal then _ else _)
    split
    · apply Reading.gives_within
      apply Reading.gives_andPerhaps (gives_expression after)
      intro _ _ value hv
      exact assignment_wellFormed t ht hv
    · exact ht
termination_by (input.length, Level.ladder.length + 2)
decreasing_by
  · exact Prod.Lex.right _ (Nat.lt_succ_self _)
  · exact Prod.Lex.left _ _ (by grind)

theorem gives_operation (levels : List Level) (input : List Token) :
    (operation levels input).Gives Expression.WellFormed := by
  cases levels with
  | nil =>
    rw [operation]
    exact gives_operand input
  | cons level tighter =>
    rw [operation]
    apply Reading.gives_andPerhaps (gives_operation tighter input)
    intro rest shorter left hl
    exact gives_operations level tighter hl rest shorter
termination_by (input.length, levels.length + 1)

theorem gives_operations (level : Level) (tighter : List Level) {left : Expression}
    (hl : left.WellFormed) {bound : Nat} : ∀ (input : List Token) (shorter : input.length < bound),
      (operations level tighter left input shorter).Gives Expression.WellFormed
  | [], _ => by
    rw [operations]
    exact hl
  | t :: after, _ => by
    rw [operations]
    split
    · rename_i ht
      apply Reading.gives_within
      apply Reading.gives_andPerhaps (gives_operation tighter after)
      intro rest shorter right hr
      exact gives_operations level tighter (Level.join_wellFormed ht hl hr) rest shorter
    · exact hl
termination_by input => (input.length, 0)

theorem gives_operand (input : List Token) : (operand input).Gives Expression.WellFormed := by
  cases input with
  | nil =>
    rw [operand]
    trivial
  | cons t after =>
    rw [operand]
    split
    · rename_i hs
      apply Reading.gives_within
      apply Reading.gives_map (gives_operand after)
      intro e he
      exact ⟨by simpa [Token.isSign] using hs, he⟩
    · split
      · rename_i name hk
        exact ⟨name, hk⟩
      · apply Reading.gives_within
        apply Reading.gives_andThen (gives_expression after)
        intro rest _ inner hi
        have hi : (Expression.group inner).WellFormed := hi
        exact Reading.gives_ending hi ..
      · split
        · trivial
        · trivial
termination_by (input.length, 0)

end

/-! ### Statements -/

theorem gives_initializer {name : Token} (hn : name.IsName) (input : List Token) :
    (initializer name input).Gives Statement.WellFormed := by
  cases input with
  | nil => trivial
  | cons t after =>
    rw [initializer]
    split
    · apply Reading.gives_within
      apply Reading.gives_andThen (gives_expression after)
      intro rest _ value hv
      have hd : (Statement.declare name (some value)).WellFormed := ⟨hn, hv⟩
      exact Reading.gives_ending hd ..
    · have hd : (Statement.declare name none).WellFormed := hn
      exact Reading.gives_ending hd ..

theorem gives_variableDeclaration (input : List Token) :
    (variableDeclaration input).Gives Statement.WellFormed := by
  cases input with
  | nil => trivial
  | cons name after =>
    rw [variableDeclaration]
    split
    · rename_i text hk
      exact Reading.gives_within _ (gives_initializer ⟨text, hk⟩ after)
    · trivial

theorem gives_printStatement (input : List Token) :
    (printStatement input).Gives Statement.IsBody := by
  apply Reading.gives_andThen (gives_expression input)
  intro rest _ value hv
  have hb : (Statement.print value).IsBody := ⟨hv, rfl⟩
  exact Reading.gives_ending hb ..

theorem gives_expressionStatement (input : List Token) :
    (expressionStatement input).Gives Statement.IsBody := by
  apply Reading.gives_andThen (gives_expression input)
  intro rest _ e he
  have hb : (Statement.evaluate e).IsBody := ⟨he, rfl⟩
  exact Reading.gives_ending hb ..

theorem gives_startClause (input : List Token) :
    (startClause input).Gives fun start => ∀ s ∈ start, s.WellFormed := by
  have hs (s : Statement) (h : s.WellFormed) : ∀ t ∈ some s, t.WellFormed := by
    intro t ht
    cases ht
    exact h
  have he (input : List Token) :
      ((expressionStatement input).map some).Gives fun start => ∀ s ∈ start, s.WellFormed :=
    Reading.gives_map (gives_expressionStatement input) fun s h => hs s h.1
  cases input with
  | nil => exact he []
  | cons t after =>
    rw [startClause]
    split
    · intro s h
      cases h
    · exact Reading.gives_within _ (Reading.gives_map (gives_variableDeclaration after) hs)
    · exact he (t :: after)

theorem gives_loopCondition (input : List Token) :
    (loopCondition input).Gives Expression.WellFormed := by
  apply Reading.gives_andThen (gives_expression input)
  intro rest _ condition hc
  exact Reading.gives_ending hc ..

theorem gives_conditionClause (input : List Token) :
    (conditionClause input).Gives Expression.WellFormed := by
  cases input with
  | nil => exact gives_loopCondition []
  | cons t after =>
    rw [conditionClause]
    split
    · trivial
    · exact gives_loopCondition (t :: after)

theorem gives_stepClause (input : List Token) :
    (stepClause input).Gives fun step => ∀ e ∈ step, e.WellFormed := by
  have hl (input : List Token) :
      ((loopStep input).map some).Gives fun step => ∀ e ∈ step, e.WellFormed := by
    have hw : (loopStep input).Gives Expression.WellFormed := by
      apply Reading.gives_andThen (gives_expression input)
      intro rest _ step hs
      exact Reading.gives_ending hs ..
    apply Reading.gives_map hw
    intro e he e' h
    cases h
    exact he
  cases input with
  | nil => exact hl []
  | cons t after =>
    rw [stepClause]
    split
    · intro e h
      cases h
    · exact hl (t :: after)

/-- The blocks of a `for` keep its declarations apart from its loop. -/
theorem forLoop_isBody {start : Option Statement} {condition : Expression} {step : Option Expression}
    {body : Statement} (hs : ∀ s ∈ start, s.WellFormed) (hc : condition.WellFormed)
    (he : ∀ e ∈ step, e.WellFormed) (hb : body.IsBody) :
    (forLoop start condition step body).IsBody := by
  have hl : ∀ whole : Statement, whole.IsBody → (Statement.loop condition whole).IsBody :=
    fun whole h => ⟨⟨hc, h⟩, rfl⟩
  cases step with
  | none =>
    cases start with
    | none => exact hl _ hb
    | some s => exact ⟨⟨hs s rfl, (hl _ hb).1, trivial⟩, rfl⟩
  | some e =>
    have hbody : (Statement.block [some body, some (.evaluate e)]).IsBody :=
      ⟨⟨hb.1, he e rfl, trivial⟩, rfl⟩
    cases start with
    | none => exact hl _ hbody
    | some s => exact ⟨⟨hs s rfl, (hl _ hbody).1, trivial⟩, rfl⟩

theorem ofReading_entry {bound : Nat} (h : 0 < bound) {r : Reading bound Statement}
    (hr : r.Gives Statement.WellFormed) : ∀ s ∈ (Declared.ofReading h r).entry, s.WellFormed := by
  cases r with
  | done s cs rest shorter =>
    intro t ht
    cases ht
    exact hr
  | stuck p cs rest w =>
    intro t ht
    cases ht

theorem gives_wellFormed {n : Nat} {r : Reading n Statement} (h : r.Gives Statement.IsBody) :
    r.Gives Statement.WellFormed := by
  cases r with
  | done s cs rest shorter => exact h.1
  | stuck p cs rest w => trivial

mutual

theorem declaration_wellFormed (t : Token) (after : List Token) :
    ∀ s ∈ (declaration t after).entry, s.WellFormed := by
  rw [declaration]
  split
  · exact ofReading_entry _ (Reading.gives_within _ (gives_variableDeclaration after))
  · exact ofReading_entry _ (gives_wellFormed (gives_statement (t :: after)))
termination_by (after.length + 1, 1)

theorem gives_statement (input : List Token) : (statement input).Gives Statement.IsBody := by
  cases input with
  | nil =>
    rw [statement]
    exact gives_expressionStatement []
  | cons t after =>
    rw [statement]
    split
    · exact Reading.gives_within _ (gives_ifStatement after)
    · exact Reading.gives_within _ (gives_printStatement after)
    · exact Reading.gives_within _ (Reading.gives_map (gives_block after) fun body h => ⟨h, rfl⟩)
    · exact Reading.gives_within _ (gives_whileStatement after)
    · exact Reading.gives_within _ (gives_forStatement after)
    · exact gives_expressionStatement (t :: after)
termination_by (input.length, 0)

theorem gives_block (input : List Token) : (block input).Gives Declarations.WellFormed := by
  cases input with
  | nil =>
    rw [block]
    trivial
  | cons t after =>
    rw [block]
    split
    · trivial
    · apply Reading.gives_within
      apply Reading.gives_noting
      have hlt := (declaration t after).shorter
      apply Reading.gives_map (gives_block (declaration t after).rest)
      intro later hl
      exact Declarations.wellFormed_cons.mpr ⟨declaration_wellFormed t after, hl⟩
termination_by (input.length, 2)

theorem gives_ifStatement (input : List Token) : (ifStatement input).Gives Statement.IsBody := by
  rw [ifStatement]
  apply Reading.gives_andThen (Reading.gives_expect ..)
  intro rest h1 _ _
  apply Reading.gives_andThen (gives_expression rest)
  intro rest h2 condition hc
  apply Reading.gives_andThen (Reading.gives_expect ..)
  intro rest h3 _ _
  apply Reading.gives_andPerhaps (gives_statement rest)
  intro rest h4 yes hy
  have hn : (Statement.branch condition yes none).IsBody := ⟨⟨hc, hy⟩, rfl⟩
  cases rest with
  | nil => exact hn
  | cons t after =>
    show Reading.Gives _ (if t.kind = .symbol .elseWord then _ else _)
    split
    · apply Reading.gives_within
      exact Reading.gives_map (gives_statement after) fun no h => ⟨⟨hc, hy, h⟩, rfl⟩
    · exact hn
termination_by (input.length, 0)
decreasing_by all_goals exact Prod.Lex.left _ _ (by grind)

theorem gives_whileStatement (input : List Token) :
    (whileStatement input).Gives Statement.IsBody := by
  rw [whileStatement]
  apply Reading.gives_andThen (Reading.gives_expect ..)
  intro rest h1 _ _
  apply Reading.gives_andThen (gives_expression rest)
  intro rest h2 condition hc
  apply Reading.gives_andThen (Reading.gives_expect ..)
  intro rest h3 _ _
  exact Reading.gives_map (gives_statement rest) fun body h => ⟨⟨hc, h⟩, rfl⟩
termination_by (input.length, 0)

theorem gives_forStatement (input : List Token) : (forStatement input).Gives Statement.IsBody := by
  rw [forStatement]
  apply Reading.gives_andThen (Reading.gives_expect ..)
  intro rest h1 _ _
  apply Reading.gives_andThen (gives_startClause rest)
  intro rest h2 start hs
  apply Reading.gives_andThen (gives_conditionClause rest)
  intro rest h3 condition hc
  apply Reading.gives_andThen (gives_stepClause rest)
  intro rest h4 step he
  exact Reading.gives_map (gives_statement rest) fun body hb => forLoop_isBody hs hc he hb
termination_by (input.length, 0)

end

theorem program_wellFormed (input : List Token) :
    Declarations.WellFormed (program input).1 := by
  cases input with
  | nil =>
    rw [program]
    trivial
  | cons t after =>
    rw [program]
    have hlt := (declaration t after).shorter
    exact Declarations.wellFormed_cons.mpr
      ⟨declaration_wellFormed t after, program_wellFormed (declaration t after).rest⟩
termination_by input.length

end Grammar

/-- Whatever is read is well formed. -/
theorem parse_wellFormed (tokens : List Token) :
    Declarations.WellFormed (parse tokens).declarations :=
  Grammar.program_wellFormed _

end Lox
