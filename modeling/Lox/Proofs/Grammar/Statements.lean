/-
# Statements and programs are read by their grammar

A derivation of a statement is read as its tree unless an `else` follows that
the statement could take. So a program with a derivation is read as its trees.

Key definitions: `NoElse`, `Fronts`.
Key theorems: `StatementDerivation.clean`, `ProgramDerivation.program`.
-/
import Lox.Proofs.Grammar.Expressions

namespace Lox

open Grammar (Stops)

/-- The symbols an expression can start with. -/
def Symbol.opensExpression : Symbol → Bool
  | leftParen | bang | minus | falseWord | trueWord | nilWord => true
  | _ => false

namespace Derivation

/-- An expression has a first token, and if that is a symbol it can open one. -/
theorem exists_head {c : Category} (d : Derivation c) :
    ∃ t ts, d.tokens = t :: ts ∧ ∀ s, t.kind = .symbol s → s.opensExpression = true := by
  induction d with
  | literal t value h =>
    refine ⟨t, [], rfl, fun s hs => ?_⟩
    rw [hs] at h
    cases h <;> rfl
  | name t =>
    obtain ⟨x, hx⟩ := t.2
    exact ⟨t.1, [], rfl, fun s hs => by rw [hx] at hs; cases hs⟩
  | group left inner right =>
    exact ⟨left.1, _, rfl, fun s hs => by rw [left.2] at hs; cases hs; rfl⟩
  | unary sign inner =>
    refine ⟨sign.1, _, rfl, fun s hs => ?_⟩
    rcases sign.2 with h | h <;> rw [h] at hs <;> cases hs <;> rfl
  | operand o ih | tighter o ih | operation o ih => exact ih
  | join left operator right ih =>
    obtain ⟨t, ts, h, ho⟩ := ih
    exact ⟨t, ts ++ operator.1 :: right.tokens, by rw [tokens, h]; rfl, ho⟩
  | assign target equals value =>
    obtain ⟨x, hx⟩ := target.2
    exact ⟨target.1, _, rfl, fun s hs => by rw [hx] at hs; cases hs⟩

/-- An expression before a symbol that is neither an operator nor `=`. -/
theorem clean_before (d : Derivation .expression) {s : Symbol} (t : Spelled s) (hs : s.level? = none)
    (he : s ≠ .equal) (rest : List Token) :
    (Grammar.expression (d.tokens ++ t.1 :: rest)).Clean d.tree (t.1 :: rest) := by
  refine reads d (t.1 :: rest) (stops_of_level t.2 hs _ _) fun u hu hk => ?_
  cases hu
  rw [t.2] at hk
  cases hk
  exact he rfl

end Derivation

theorem VariableDerivation.clean (d : VariableDerivation) (rest : List Token) :
    ∃ after, d.tokens ++ rest = d.word.1 :: after ∧
      (Grammar.variableDeclaration after).Clean d.tree rest := by
  obtain ⟨word, name, value, semicolon⟩ := d
  cases value with
  | none =>
    refine ⟨name.1 :: semicolon.1 :: rest, rfl, ?_⟩
    exact (Grammar.clean_variableDeclaration ..).mpr ⟨name.1, _, rfl, name.2,
      (Grammar.clean_initializer ..).mpr (.inl ⟨semicolon.1, rfl, semicolon.2, rfl⟩)⟩
  | some value =>
    obtain ⟨equals, e⟩ := value
    refine ⟨name.1 :: equals.1 :: (e.tokens ++ semicolon.1 :: rest), by simp [tokens], ?_⟩
    exact (Grammar.clean_variableDeclaration ..).mpr ⟨name.1, _, rfl, name.2,
      (Grammar.clean_initializer ..).mpr (.inr ⟨equals.1, _, e.tree, semicolon.1, rfl, equals.2,
        e.clean_before semicolon rfl (by decide) rest, semicolon.2, rfl⟩)⟩

theorem clean_expressionStatement (e : Derivation .expression) (semicolon : Spelled .semicolon)
    (rest : List Token) :
    (Grammar.expressionStatement (e.tokens ++ semicolon.1 :: rest)).Clean (.evaluate e.tree) rest :=
  (Grammar.clean_expression_expect ..).mpr ⟨e.tree, semicolon.1,
    e.clean_before semicolon rfl (by decide) rest, semicolon.2, rfl⟩

theorem clean_startClause (d : StartDerivation) (rest : List Token) :
    (Grammar.startClause (d.tokens ++ rest)).Clean d.tree rest := by
  cases d with
  | absent semicolon => exact (Grammar.clean_startClause_cons ..).mpr (.inl ⟨semicolon.2, rfl, rfl⟩)
  | declare v =>
    obtain ⟨after, h, hc⟩ := v.clean rest
    change (Grammar.startClause (v.tokens ++ rest)).Clean (some v.tree) rest
    rw [h]
    exact (Grammar.clean_startClause_cons ..).mpr (.inr (.inl ⟨v.word.2, v.tree, hc, rfl⟩))
  | expression e semicolon =>
    obtain ⟨t, ts, h, ho⟩ := e.exists_head
    have he := clean_expressionStatement e semicolon rest
    change (Grammar.startClause ((e.tokens ++ [semicolon.1]) ++ rest)).Clean
      (some (.evaluate e.tree)) rest
    rw [List.append_assoc]
    rw [h] at he ⊢
    refine (Grammar.clean_startClause_cons ..).mpr (.inr (.inr ⟨?_, ?_, _, he, rfl⟩))
    · exact fun hk => absurd (ho _ hk) (by decide)
    · exact fun hk => absurd (ho _ hk) (by decide)

theorem clean_conditionClause (c : Option (Derivation .expression)) (semicolon : Spelled .semicolon)
    (rest : List Token) :
    (Grammar.conditionClause (optionalTokens c ++ semicolon.1 :: rest)).Clean
      ((c.map (·.tree)).getD (.literal (.boolean true))) rest := by
  cases c with
  | none => exact (Grammar.clean_conditionClause_cons ..).mpr (.inl ⟨semicolon.2, rfl, rfl⟩)
  | some e =>
    obtain ⟨t, ts, h, ho⟩ := e.exists_head
    have he := e.clean_before semicolon rfl (by decide) rest
    change (Grammar.conditionClause (e.tokens ++ semicolon.1 :: rest)).Clean e.tree rest
    rw [h] at he ⊢
    exact (Grammar.clean_conditionClause_cons ..).mpr
      (.inr ⟨fun hk => absurd (ho _ hk) (by decide), semicolon.1, he, semicolon.2⟩)

theorem clean_stepClause (step : Option (Derivation .expression)) (right : Spelled .rightParen)
    (rest : List Token) :
    (Grammar.stepClause (optionalTokens step ++ right.1 :: rest)).Clean (step.map (·.tree)) rest := by
  cases step with
  | none => exact (Grammar.clean_stepClause_cons ..).mpr (.inl ⟨right.2, rfl, rfl⟩)
  | some e =>
    obtain ⟨t, ts, h, ho⟩ := e.exists_head
    have he := e.clean_before right rfl (by decide) rest
    change (Grammar.stepClause (e.tokens ++ right.1 :: rest)).Clean (some e.tree) rest
    rw [h] at he ⊢
    exact (Grammar.clean_stepClause_cons ..).mpr
      (.inr ⟨fun hk => absurd (ho _ hk) (by decide), e.tree, right.1, he, right.2, rfl⟩)

theorem desugared_eq_forLoop (start : Option Statement) (condition step : Option Expression)
    (body : Statement) :
    desugared start condition step body =
      Grammar.forLoop start (condition.getD (.literal (.boolean true))) step body := by
  cases start <;> cases step <;> rfl

/-- The first token is no `else`. -/
def NoElse (tokens : List Token) : Prop := ∀ t ∈ tokens.head?, t.kind ≠ .symbol .elseWord

theorem noElse_of_spelled {s : Symbol} (t : Spelled s) (h : s ≠ .elseWord) (after : List Token) :
    NoElse (t.1 :: after) := by
  intro u hu hk
  cases hu
  rw [t.2] at hk
  cases hk
  exact h rfl

/-- The symbols a statement can start with. -/
def Symbol.opensStatement (s : Symbol) : Bool := s.opensExpression || Grammar.leads s

theorem StatementDerivation.exists_head {o : Bool} (d : StatementDerivation o) :
    ∃ t ts, d.tokens = t :: ts ∧ ∀ s, t.kind = .symbol s → s.opensStatement = true := by
  cases d with
  | evaluate e semicolon =>
    obtain ⟨t, ts, h, ho⟩ := e.exists_head
    refine ⟨t, ts ++ [semicolon.1], by rw [tokens, h]; rfl, fun s hs => ?_⟩
    rw [Symbol.opensStatement, ho s hs, Bool.true_or]
  | print word | block word | ifThen word | ifElse word | whileLoop word | forLoop word =>
    exact ⟨word.1, _, rfl, fun s hs => by rw [word.2] at hs; cases hs; rfl⟩

/-- A declaration at the front of the tokens, and what it is read as; it is not
the end of a block and no second branch of an `if`. -/
def Fronts (tokens : List Token) (s : Statement) (rest : List Token) : Prop :=
  ∃ t after, tokens = t :: after ∧ t.kind ≠ .symbol .rightBrace ∧ t.kind ≠ .symbol .elseWord ∧
    (Grammar.declaration t after).Clean s rest

theorem VariableDerivation.fronts (d : VariableDerivation) (rest : List Token) :
    Fronts (d.tokens ++ rest) d.tree rest := by
  obtain ⟨after, h, hc⟩ := d.clean rest
  refine ⟨d.word.1, after, h, by simp [d.word.2], by simp [d.word.2], ?_⟩
  exact (Grammar.clean_declaration ..).mpr (.inl ⟨d.word.2, hc⟩)

theorem StatementDerivation.fronts {o : Bool} {d : StatementDerivation o} {rest : List Token}
    (h : (Grammar.statement (d.tokens ++ rest)).Clean d.tree rest) :
    Fronts (d.tokens ++ rest) d.tree rest := by
  obtain ⟨t, ts, ht, ho⟩ := d.exists_head
  rw [ht] at h ⊢
  refine ⟨t, ts ++ rest, rfl, fun hk => ?_, fun hk => ?_, ?_⟩
  · exact absurd (ho _ hk) (by decide)
  · exact absurd (ho _ hk) (by decide)
  · exact (Grammar.clean_declaration ..).mpr (.inr ⟨fun hk => absurd (ho _ hk) (by decide), h⟩)

theorem ProgramDerivation.noElse (d : ProgramDerivation) {rest : List Token} (h : NoElse rest) :
    NoElse (d.tokens ++ rest) := by
  cases d with
  | nil => exact h
  | declare v later =>
    obtain ⟨t, after, ht, -, hne, -⟩ := v.fronts (later.tokens ++ rest)
    rw [tokens, List.append_assoc, ht]
    intro u hu
    cases hu
    exact hne
  | statement s later =>
    obtain ⟨t, ts, ht, ho⟩ := s.exists_head
    rw [tokens, List.append_assoc, ht]
    intro u hu hk
    cases hu
    exact absurd (ho _ hk) (by decide)

theorem Fronts.block {input mid rest : List Token} {s : Statement} {later : Declarations}
    (h : Fronts input s mid) (hl : (Grammar.block mid).Clean later rest) :
    (Grammar.block input).Clean (some s :: later) rest := by
  obtain ⟨t, after, rfl, hne, -, hs⟩ := h
  exact (Grammar.clean_block_cons ..).mpr (.inr ⟨hne, s, mid, later, hs, hl, rfl⟩)

theorem Fronts.program {input mid : List Token} {s : Statement} (h : Fronts input s mid) :
    Grammar.program input = (some s :: (Grammar.program mid).1, (Grammar.program mid).2) := by
  obtain ⟨t, after, rfl, -, -, he, hc, hr⟩ := h
  rw [Grammar.program]
  generalize Grammar.declaration t after = d at he hc hr
  obtain ⟨entry, cs, m, shorter⟩ := d
  cases he
  cases hc
  cases hr
  rfl

mutual

/-- A statement is read as its tree, unless it could take an `else` and one follows. -/
theorem StatementDerivation.clean : ∀ {o : Bool} (d : StatementDerivation o) (rest : List Token),
    (o = true → NoElse rest) → (Grammar.statement (d.tokens ++ rest)).Clean d.tree rest
  | _, .print word value semicolon, rest, _ => by
    have hv := value.clean_before semicolon rfl (by decide) rest
    rw [StatementDerivation.tokens, List.cons_append, List.append_assoc]
    exact (Grammar.clean_statement_cons ..).mpr (.inr (.inl ⟨word.2,
      (Grammar.clean_expression_expect ..).mpr ⟨value.tree, semicolon.1, hv, semicolon.2, rfl⟩⟩))
  | _, .evaluate e semicolon, rest, _ => by
    obtain ⟨t, ts, h, ho⟩ := e.exists_head
    have he := clean_expressionStatement e semicolon rest
    rw [StatementDerivation.tokens, List.append_assoc, List.cons_append, List.nil_append]
    rw [h] at he ⊢
    refine (Grammar.clean_statement_cons ..).mpr (.inr (.inr (.inr (.inr (.inr ⟨?_, he⟩)))))
    intro s hs
    have := ho s hs
    cases s <;> first
      | rfl
      | exact absurd this (by decide)
  | _, .block left body right, rest, _ => by
    have hb := body.clean right rest
    rw [StatementDerivation.tokens, List.cons_append, List.append_assoc]
    exact (Grammar.clean_statement_cons ..).mpr (.inr (.inr (.inl ⟨left.2, _, hb, rfl⟩)))
  | _, .ifThen word left condition right yes, rest, ho => by
    have hc := condition.clean_before right rfl (by decide) (yes.tokens ++ rest)
    have hy := yes.clean rest fun _ => ho rfl
    rw [StatementDerivation.tokens, List.cons_append, List.cons_append, List.append_assoc,
      List.cons_append]
    refine (Grammar.clean_statement_cons ..).mpr (.inl ⟨word.2, (Grammar.clean_ifStatement ..).mpr ?_⟩)
    exact ⟨left.1, _, condition.tree, right.1, _, yes.tree, rest, rfl, left.2, hc, right.2, hy,
      .inl ⟨ho rfl, rfl, rfl⟩⟩
  | _, .ifElse word left condition right yes elseWord no, rest, ho => by
    have hc := condition.clean_before right rfl (by decide)
      (yes.tokens ++ elseWord.1 :: (no.tokens ++ rest))
    have hy := yes.clean (elseWord.1 :: (no.tokens ++ rest)) fun h => absurd h (by decide)
    have hno := no.clean rest ho
    rw [StatementDerivation.tokens, List.cons_append, List.cons_append, List.append_assoc,
      List.cons_append, List.append_assoc, List.cons_append]
    refine (Grammar.clean_statement_cons ..).mpr (.inl ⟨word.2, (Grammar.clean_ifStatement ..).mpr ?_⟩)
    exact ⟨left.1, _, condition.tree, right.1, _, yes.tree, _, rfl, left.2, hc, right.2, hy,
      .inr ⟨elseWord.1, _, no.tree, rfl, elseWord.2, hno, rfl⟩⟩
  | _, .whileLoop word left condition right body, rest, ho => by
    have hc := condition.clean_before right rfl (by decide) (body.tokens ++ rest)
    have hb := body.clean rest ho
    rw [StatementDerivation.tokens, List.cons_append, List.cons_append, List.append_assoc,
      List.cons_append]
    refine (Grammar.clean_statement_cons ..).mpr (.inr (.inr (.inr (.inl ⟨word.2,
      (Grammar.clean_whileStatement ..).mpr ?_⟩))))
    exact ⟨left.1, _, condition.tree, right.1, _, body.tree, rfl, left.2, hc, right.2, hb, rfl⟩
  | _, .forLoop word left start condition semicolon step right body, rest, ho => by
    have hb := body.clean rest ho
    have hp := clean_stepClause step right (body.tokens ++ rest)
    have hc := clean_conditionClause condition semicolon
      (optionalTokens step ++ right.1 :: (body.tokens ++ rest))
    have hs := clean_startClause start
      (optionalTokens condition ++ semicolon.1 ::
        (optionalTokens step ++ right.1 :: (body.tokens ++ rest)))
    rw [StatementDerivation.tokens, List.cons_append, List.cons_append, List.append_assoc,
      List.append_assoc, List.cons_append, List.append_assoc, List.cons_append,
      StatementDerivation.tree, desugared_eq_forLoop]
    refine (Grammar.clean_statement_cons ..).mpr (.inr (.inr (.inr (.inr (.inl ⟨word.2,
      (Grammar.clean_forStatement ..).mpr ?_⟩)))))
    exact ⟨left.1, _, start.tree, _, _, _, _, _, body.tree, rfl, left.2, hs, hc, hp, hb, rfl⟩

/-- A block is read up to its closing brace. -/
theorem ProgramDerivation.clean : ∀ (d : ProgramDerivation) (right : Spelled .rightBrace)
    (rest : List Token),
    (Grammar.block (d.tokens ++ right.1 :: rest)).Clean (d.trees.map some) rest
  | .nil, right, rest => (Grammar.clean_block_cons ..).mpr (.inl ⟨right.2, rfl, rfl⟩)
  | .declare v later, right, rest => by
    have hl := later.clean right rest
    rw [ProgramDerivation.tokens, List.append_assoc]
    exact (v.fronts _).block hl
  | .statement s later, right, rest => by
    have hl := later.clean right rest
    have hs := s.clean (later.tokens ++ right.1 :: rest) fun _ =>
      later.noElse (noElse_of_spelled right (by decide) rest)
    rw [ProgramDerivation.tokens, List.append_assoc]
    exact (StatementDerivation.fronts hs).block hl

end

/-- A program is read as its trees. -/
theorem ProgramDerivation.program : ∀ d : ProgramDerivation,
    Grammar.program d.tokens = (d.trees.map some, [])
  | .nil => by rw [tokens, Grammar.program, trees, List.map_nil]
  | .declare v later => by
    rw [tokens, (v.fronts _).program, later.program, trees, List.map_cons]
  | .statement s later => by
    have hs := s.clean later.tokens fun _ => by
      have hn : NoElse [] := fun _ h => by cases h
      have := later.noElse hn
      rwa [List.append_nil] at this
    rw [tokens, (StatementDerivation.fronts hs).program, later.program, trees, List.map_cons]

end Lox
