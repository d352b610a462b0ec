/-
# What each phrase is read as

One equation for each function that reads a phrase: what it has to find to come
to a value without a complaint. The grammar and the functions describe the same
tokens by different tables, which are compared first.

Key theorems: `Grammar.clean_expression`, `Grammar.clean_operand_cons`,
`Grammar.clean_statement_cons`, `Grammar.clean_declaration`, `Grammar.clean_block_cons`.
-/
import Lox.Proofs.Grammar.Clean
import Lox.Proofs.Grammar.Derivation

namespace Lox

/-! ### The tokens of the grammar and the tables of the reader -/

theorem Level.contains_symbols (level : Level) (s : Symbol) :
    level.symbols.contains s = true ↔ s.level? = some level := by
  cases level <;> cases s <;> decide

theorem Level.owns_iff (level : Level) (t : Token) :
    level.owns t = true ↔ ∃ s, t.kind = .symbol s ∧ s.level? = some level := by
  unfold owns
  split
  · rename_i s h
    rw [contains_symbols]
    exact ⟨fun hs => ⟨s, h, hs⟩, fun ⟨s', h', hs⟩ => by rw [h] at h'; cases h'; exact hs⟩
  · rename_i h
    exact ⟨fun hf => absurd hf (by simp), fun ⟨s, hs, _⟩ => absurd hs (h s)⟩

/-- A token is an operator of one level at most. -/
theorem Level.eq_of_owns {level other : Level} {t : Token} (h : level.owns t = true)
    (h' : other.owns t = true) : level = other := by
  obtain ⟨s, hk, hs⟩ := (level.owns_iff t).mp h
  obtain ⟨s', hk', hs'⟩ := (other.owns_iff t).mp h'
  rw [hk] at hk'
  cases hk'
  rw [hs] at hs'
  exact Option.some.inj hs'

theorem Kind.literal?_eq_some_iff (k : Kind) (v : Value) : k.literal? = some v ↔ k.Denotes v := by
  constructor
  · unfold literal?
    intro h
    split at h <;> cases h <;> constructor
  · rintro ⟨⟩ <;> rfl

theorem Token.isSign_iff (t : Token) :
    t.isSign = true ↔ t.kind = .symbol .bang ∨ t.kind = .symbol .minus := by
  simp [isSign]

/-! ### Expressions -/

namespace Grammar

/-- No token of `rest` goes on with an operation on one of the levels. -/
def Stops (levels : List Level) (rest : List Token) : Prop :=
  ∀ t ∈ rest.head?, ∀ level ∈ levels, level.owns t = false

theorem clean_expression (input : List Token) (e : Expression) (rest : List Token) :
    (expression input).Clean e rest ↔
      ((operation Level.ladder input).Clean e rest ∧ ∀ t ∈ rest.head?, t.kind ≠ .symbol .equal) ∨
      ∃ target equals after value, (operation Level.ladder input).Clean (.name target) (equals :: after) ∧
        equals.kind = .symbol .equal ∧ (expression after).Clean value rest ∧
        e = .assign target value := by
  rw [expression, Reading.clean_andPerhaps]
  constructor
  · rintro ⟨target, mid, h, hn⟩
    cases mid with
    | nil =>
      simp only [Reading.clean_done] at hn
      obtain ⟨rfl, -, rfl⟩ := hn
      exact .inl ⟨h, by simp⟩
    | cons t after =>
      simp only at hn
      split at hn
      · rename_i he
        simp only [Reading.clean_within, Reading.clean_andPerhaps, Reading.clean_done] at hn
        obtain ⟨value, rest', hv, rfl, hc, rfl⟩ := hn
        unfold assignment at hc
        split at hc
        · rename_i token
          exact .inr ⟨token, t, after, value, h, he, hv, rfl⟩
        · cases hc
      · rename_i he
        simp only [Reading.clean_done] at hn
        obtain ⟨rfl, -, rfl⟩ := hn
        exact .inl ⟨h, by simpa using he⟩
  · rintro (⟨h, hs⟩ | ⟨target, equals, after, value, h, he, hv, rfl⟩)
    · refine ⟨e, rest, h, ?_⟩
      cases rest with
      | nil => simp
      | cons t after => simp [hs t rfl]
    · refine ⟨_, _, h, ?_⟩
      simp only [if_pos he, Reading.clean_within, Reading.clean_andPerhaps, Reading.clean_done]
      exact ⟨value, rest, hv, rfl, rfl, rfl⟩

theorem clean_operation_nil (input : List Token) (e : Expression) (rest : List Token) :
    (operation [] input).Clean e rest ↔ (operand input).Clean e rest := by
  rw [operation]

theorem clean_operation_cons (level : Level) (tighter : List Level) (input : List Token)
    (e : Expression) (rest : List Token) :
    (operation (level :: tighter) input).Clean e rest ↔
      ∃ left mid, ∃ h : (operation tighter input).Clean left mid,
        (operations level tighter left mid h.shorter).Clean e rest := by
  rw [operation, Reading.clean_andPerhaps]

theorem clean_operations_nil (level : Level) (tighter : List Level) (left : Expression)
    {bound : Nat} (shorter : [].length < bound) (e : Expression) (rest : List Token) :
    (operations level tighter left [] shorter).Clean e rest ↔ left = e ∧ [] = rest := by
  rw [operations]
  simp

theorem clean_operations_cons (level : Level) (tighter : List Level) (left : Expression)
    (t : Token) (after : List Token) {bound : Nat} (shorter : (t :: after).length < bound)
    (e : Expression) (rest : List Token) :
    (operations level tighter left (t :: after) shorter).Clean e rest ↔
      (level.owns t = false ∧ left = e ∧ t :: after = rest) ∨
      (level.owns t = true ∧ ∃ right mid, ∃ h : (operation tighter after).Clean right mid,
        (operations level tighter (level.join left t right) mid h.shorter).Clean e rest) := by
  rw [operations]
  split
  · rename_i h
    simp [h]
  · rename_i h
    simp [h]

theorem clean_operand_cons (t : Token) (after : List Token) (e : Expression) (rest : List Token) :
    (operand (t :: after)).Clean e rest ↔
      (t.isSign = true ∧ ∃ inner, (operand after).Clean inner rest ∧ e = .unary t inner) ∨
      ((∃ name, t.kind = .identifier name) ∧ e = .name t ∧ rest = after) ∨
      (t.kind = .symbol .leftParen ∧ ∃ inner right, (expression after).Clean inner (right :: rest) ∧
        right.kind = .symbol .rightParen ∧ e = .group inner) ∨
      (∃ value, t.kind.Denotes value ∧ e = .literal value ∧ rest = after) := by
  rw [operand]
  split
  · rename_i hs
    simp only [Reading.clean_past, Reading.clean_map, hs, true_and]
    rw [Token.isSign_iff] at hs
    constructor
    · rintro ⟨inner, h, rfl⟩
      exact .inl ⟨inner, h, rfl⟩
    · rintro (⟨inner, h, rfl⟩ | ⟨⟨name, hn⟩, -⟩ | ⟨hp, -⟩ | ⟨value, hv, -⟩)
      · exact ⟨inner, h, rfl⟩
      · simp [hn] at hs
      · simp [hp] at hs
      · rcases hs with hs | hs <;> rw [hs] at hv <;> cases hv
  · rename_i hs
    simp only [hs, Bool.false_eq_true, false_and, false_or]
    split
    · rename_i name hk
      simp only [Reading.clean_one, hk, Kind.identifier.injEq, exists_eq', true_and, reduceCtorEq,
        false_and, false_or]
      constructor
      · rintro ⟨rfl, rfl⟩
        exact .inl ⟨rfl, rfl⟩
      · rintro (⟨rfl, rfl⟩ | ⟨value, hv, -⟩)
        · exact ⟨rfl, rfl⟩
        · cases hv
    · rename_i hk
      simp only [Reading.clean_past, Reading.clean_andThen, Reading.clean_map, clean_expect, hk]
      constructor
      · rintro ⟨inner, mid, h, right, ⟨rfl, hr⟩, rfl⟩
        exact .inr (.inl ⟨trivial, inner, right, h, hr, rfl⟩)
      · rintro (⟨⟨name, hn⟩, -⟩ | ⟨-, inner, right, h, hr, rfl⟩ | ⟨value, hv, -⟩)
        · cases hn
        · exact ⟨inner, _, h, right, ⟨rfl, hr⟩, rfl⟩
        · cases hv
    · rename_i hn hp
      have hlit : ∀ v, t.kind.Denotes v ↔ t.kind.literal? = some v := fun v =>
        (t.kind.literal?_eq_some_iff v).symm
      simp only [hlit]
      split
      · rename_i value hv
        simp only [Reading.clean_one, hv, Option.some.injEq]
        constructor
        · rintro ⟨rfl, rfl⟩
          exact .inr (.inr ⟨value, rfl, rfl, rfl⟩)
        · rintro (⟨⟨name, h⟩, -⟩ | ⟨h, -⟩ | ⟨_, rfl, rfl, rfl⟩)
          · exact absurd h (hn name)
          · exact absurd h hp
          · exact ⟨rfl, rfl⟩
      · rename_i hv
        simp only [hv, Reading.not_clean_stop, reduceCtorEq, false_and, exists_false, or_false,
          false_iff, not_or]
        refine ⟨?_, fun h => hp h.1⟩
        rintro ⟨⟨name, h⟩, -⟩
        exact hn name h

/-! ### Statements -/

open Reading

/-- An expression and the symbol after it. -/
theorem clean_expression_expect {β : Type} (s : Symbol) (p : Problem) (f : Expression → β)
    (input : List Token) (w : β) (rest : List Token) :
    ((expression input).andThen fun rest _ e => (expect s p rest).map fun _ => f e).Clean w rest ↔
      ∃ e t, (expression input).Clean e (t :: rest) ∧ t.kind = .symbol s ∧ f e = w := by
  simp only [clean_andThen, clean_map, clean_expect]
  constructor
  · rintro ⟨e, mid, he, t, ⟨rfl, ht⟩, hw⟩
    exact ⟨e, t, he, ht, hw⟩
  · rintro ⟨e, t, he, ht, hw⟩
    exact ⟨e, _, he, t, ⟨rfl, ht⟩, hw⟩

theorem clean_initializer (name : Token) (input : List Token) (s : Statement) (rest : List Token) :
    (initializer name input).Clean s rest ↔
      (∃ semicolon, input = semicolon :: rest ∧ semicolon.kind = .symbol .semicolon ∧
        .declare name none = s) ∨
      ∃ equals after e semicolon, input = equals :: after ∧ equals.kind = .symbol .equal ∧
        (expression after).Clean e (semicolon :: rest) ∧ semicolon.kind = .symbol .semicolon ∧
        .declare name (some e) = s := by
  cases input with
  | nil => simp [initializer]
  | cons t after =>
    simp only [initializer]
    split
    · rename_i ht
      rw [clean_past, clean_expression_expect]
      constructor
      · rintro ⟨e, semicolon, he, hs, rfl⟩
        exact .inr ⟨t, after, e, semicolon, rfl, ht, he, hs, rfl⟩
      · rintro (⟨semicolon, h, hs, -⟩ | ⟨_, _, e, semicolon, h, -, he, hs, rfl⟩)
        · cases h
          rw [ht] at hs
          cases hs
        · cases h
          exact ⟨e, semicolon, he, hs, rfl⟩
    · rename_i ht
      simp only [clean_map, clean_expect]
      constructor
      · rintro ⟨semicolon, ⟨h, hs⟩, rfl⟩
        exact .inl ⟨semicolon, h, hs, rfl⟩
      · rintro (⟨semicolon, h, hs, rfl⟩ | ⟨_, _, _, _, h, he, -⟩)
        · exact ⟨semicolon, ⟨h, hs⟩, rfl⟩
        · cases h
          exact absurd he ht

theorem clean_variableDeclaration (input : List Token) (s : Statement) (rest : List Token) :
    (variableDeclaration input).Clean s rest ↔
      ∃ name after, input = name :: after ∧ (∃ x, name.kind = .identifier x) ∧
        (initializer name after).Clean s rest := by
  cases input with
  | nil => simp [variableDeclaration]
  | cons name after =>
    simp only [variableDeclaration]
    split
    · rename_i x hx
      rw [clean_past]
      constructor
      · exact fun h => ⟨name, after, rfl, ⟨x, hx⟩, h⟩
      · rintro ⟨_, _, h, -, hs⟩
        cases h
        exact hs
    · rename_i hx
      simp only [not_clean_stop, false_iff]
      rintro ⟨_, _, h, ⟨x, hx'⟩, -⟩
      cases h
      exact hx x hx'

theorem clean_startClause_cons (t : Token) (after : List Token) (start : Option Statement)
    (rest : List Token) :
    (startClause (t :: after)).Clean start rest ↔
      (t.kind = .symbol .semicolon ∧ start = none ∧ after = rest) ∨
      (t.kind = .symbol .varWord ∧ ∃ s, (variableDeclaration after).Clean s rest ∧ some s = start) ∨
      (t.kind ≠ .symbol .semicolon ∧ t.kind ≠ .symbol .varWord ∧
        ∃ s, (expressionStatement (t :: after)).Clean s rest ∧ some s = start) := by
  simp only [startClause]
  split
  · rename_i h
    simp [h, eq_comm]
  · rename_i h
    simp [h]
  · rename_i h h'
    have h : t.kind ≠ .symbol .semicolon := h
    have h' : t.kind ≠ .symbol .varWord := h'
    simp [h, h']

theorem clean_conditionClause_cons (t : Token) (after : List Token) (e : Expression)
    (rest : List Token) :
    (conditionClause (t :: after)).Clean e rest ↔
      (t.kind = .symbol .semicolon ∧ e = .literal (.boolean true) ∧ after = rest) ∨
      (t.kind ≠ .symbol .semicolon ∧ ∃ semicolon,
        (expression (t :: after)).Clean e (semicolon :: rest) ∧
          semicolon.kind = .symbol .semicolon) := by
  simp only [conditionClause]
  split
  · rename_i h
    simp [h, eq_comm]
  · rename_i h
    rw [loopCondition, clean_expression_expect]
    constructor
    · rintro ⟨_, semicolon, he, hs, rfl⟩
      exact .inr ⟨h, semicolon, he, hs⟩
    · rintro (⟨h', -⟩ | ⟨-, semicolon, he, hs⟩)
      · exact absurd h' h
      · exact ⟨e, semicolon, he, hs, rfl⟩

theorem clean_stepClause_cons (t : Token) (after : List Token) (step : Option Expression)
    (rest : List Token) :
    (stepClause (t :: after)).Clean step rest ↔
      (t.kind = .symbol .rightParen ∧ step = none ∧ after = rest) ∨
      (t.kind ≠ .symbol .rightParen ∧ ∃ e right,
        (expression (t :: after)).Clean e (right :: rest) ∧ right.kind = .symbol .rightParen ∧
        some e = step) := by
  simp only [stepClause]
  split
  · rename_i h
    simp [h, eq_comm]
  · rename_i h
    rw [clean_map]
    simp only [loopStep, clean_expression_expect]
    constructor
    · rintro ⟨_, ⟨e, right, he, hr, rfl⟩, rfl⟩
      exact .inr ⟨h, e, right, he, hr, rfl⟩
    · rintro (⟨h', -⟩ | ⟨-, e, right, he, hr, rfl⟩)
      · exact absurd h' h
      · exact ⟨e, ⟨e, right, he, hr, rfl⟩, rfl⟩

/-- The symbols a statement other than an expression statement starts with. -/
def leads : Symbol → Bool
  | .ifWord | .printWord | .leftBrace | .whileWord | .forWord => true
  | _ => false

theorem clean_statement_cons (t : Token) (after : List Token) (s : Statement) (rest : List Token) :
    (statement (t :: after)).Clean s rest ↔
      (t.kind = .symbol .ifWord ∧ (ifStatement after).Clean s rest) ∨
      (t.kind = .symbol .printWord ∧ (printStatement after).Clean s rest) ∨
      (t.kind = .symbol .leftBrace ∧ ∃ body, (block after).Clean body rest ∧ .block body = s) ∨
      (t.kind = .symbol .whileWord ∧ (whileStatement after).Clean s rest) ∨
      (t.kind = .symbol .forWord ∧ (forStatement after).Clean s rest) ∨
      ((∀ symbol, t.kind = .symbol symbol → leads symbol = false) ∧
        (expressionStatement (t :: after)).Clean s rest) := by
  rw [statement]
  split
  case h_6 hif hprint hbrace hwhile hfor =>
    have hlead : ∀ symbol, t.kind = .symbol symbol → leads symbol = false := by
      intro symbol h
      cases symbol <;> first
        | rfl
        | exact absurd h ‹_›
    have hif : t.kind ≠ .symbol .ifWord := hif
    have hprint : t.kind ≠ .symbol .printWord := hprint
    have hbrace : t.kind ≠ .symbol .leftBrace := hbrace
    have hwhile : t.kind ≠ .symbol .whileWord := hwhile
    have hfor : t.kind ≠ .symbol .forWord := hfor
    simp only [hif, hprint, hbrace, hwhile, hfor, false_and, false_or]
    exact ⟨fun h => ⟨hlead, h⟩, And.right⟩
  all_goals
    rename_i h
    simp [h, leads]

theorem clean_ifStatement (input : List Token) (s : Statement) (rest : List Token) :
    (ifStatement input).Clean s rest ↔
      ∃ left after c right after' yes mid, input = left :: after ∧ left.kind = .symbol .leftParen ∧
        (expression after).Clean c (right :: after') ∧ right.kind = .symbol .rightParen ∧
        (statement after').Clean yes mid ∧
        (((∀ t ∈ mid.head?, t.kind ≠ .symbol .elseWord) ∧ .branch c yes none = s ∧ mid = rest) ∨
          ∃ word after'' no, mid = word :: after'' ∧ word.kind = .symbol .elseWord ∧
            (statement after'').Clean no rest ∧ .branch c yes (some no) = s) := by
  rw [ifStatement]
  simp only [clean_andThen, clean_andPerhaps, clean_expect]
  constructor
  · rintro ⟨left, after, ⟨rfl, hl⟩, c, _, hc, right, after', ⟨rfl, hr⟩, yes, mid, hy, h⟩
    refine ⟨left, after, c, right, after', yes, mid, rfl, hl, hc, hr, hy, ?_⟩
    cases mid with
    | nil =>
      obtain ⟨rfl, -, rfl⟩ := (clean_done ..).mp h
      exact .inl ⟨by simp, rfl, rfl⟩
    | cons t after'' =>
      simp only at h
      split at h
      · rename_i ht
        simp only [clean_within, clean_map] at h
        obtain ⟨no, hn, rfl⟩ := h
        exact .inr ⟨t, after'', no, rfl, ht, hn, rfl⟩
      · rename_i ht
        obtain ⟨rfl, -, rfl⟩ := (clean_done ..).mp h
        exact .inl ⟨by simpa using ht, rfl, rfl⟩
  · rintro ⟨left, after, c, right, after', yes, mid, rfl, hl, hc, hr, hy, h⟩
    refine ⟨left, after, ⟨rfl, hl⟩, c, _, hc, right, after', ⟨rfl, hr⟩, yes, mid, hy, ?_⟩
    rcases h with ⟨ht, rfl, rfl⟩ | ⟨word, after'', no, rfl, hw, hn, rfl⟩
    · cases mid with
      | nil => simp
      | cons t after'' => simp [ht t rfl]
    · simp only [if_pos hw, clean_within, clean_map]
      exact ⟨no, hn, rfl⟩

theorem clean_whileStatement (input : List Token) (s : Statement) (rest : List Token) :
    (whileStatement input).Clean s rest ↔
      ∃ left after c right after' body, input = left :: after ∧ left.kind = .symbol .leftParen ∧
        (expression after).Clean c (right :: after') ∧ right.kind = .symbol .rightParen ∧
        (statement after').Clean body rest ∧ .loop c body = s := by
  rw [whileStatement]
  simp only [clean_andThen, clean_map, clean_expect]
  constructor
  · rintro ⟨left, after, ⟨rfl, hl⟩, c, _, hc, right, after', ⟨rfl, hr⟩, body, hb, hs⟩
    exact ⟨left, after, c, right, after', body, rfl, hl, hc, hr, hb, hs⟩
  · rintro ⟨left, after, c, right, after', body, rfl, hl, hc, hr, hb, hs⟩
    exact ⟨left, after, ⟨rfl, hl⟩, c, _, hc, right, after', ⟨rfl, hr⟩, body, hb, hs⟩

theorem clean_forStatement (input : List Token) (s : Statement) (rest : List Token) :
    (forStatement input).Clean s rest ↔
      ∃ left after start after₁ c after₂ step after₃ body, input = left :: after ∧
        left.kind = .symbol .leftParen ∧ (startClause after).Clean start after₁ ∧
        (conditionClause after₁).Clean c after₂ ∧ (stepClause after₂).Clean step after₃ ∧
        (statement after₃).Clean body rest ∧ forLoop start c step body = s := by
  rw [forStatement]
  simp only [clean_andThen, clean_map, clean_expect]
  constructor
  · rintro ⟨left, after, ⟨rfl, hl⟩, start, after₁, h₁, c, after₂, h₂, step, after₃, h₃, body, hb, hs⟩
    exact ⟨left, after, start, after₁, c, after₂, step, after₃, body, rfl, hl, h₁, h₂, h₃, hb, hs⟩
  · rintro ⟨left, after, start, after₁, c, after₂, step, after₃, body, rfl, hl, h₁, h₂, h₃, hb, hs⟩
    exact ⟨left, after, ⟨rfl, hl⟩, start, after₁, h₁, c, after₂, h₂, step, after₃, h₃, body, hb, hs⟩

/-- The declaration is read without a complaint. -/
def Declared.Clean {n : Nat} (d : Declared n) (s : Statement) (rest : List Token) : Prop :=
  d.entry = some s ∧ d.complaints = [] ∧ d.rest = rest

theorem clean_ofReading {n : Nat} (h : 0 < n) (r : Reading n Statement) (s : Statement)
    (rest : List Token) : (Declared.ofReading h r).Clean s rest ↔ r.Clean s rest := by
  cases r with
  | done v cs after shorter => simp [Declared.ofReading, Declared.Clean]
  | stuck p cs after within => simp [Declared.ofReading, Declared.Clean, Reading.Clean]

/-- A declaration that is complained about nothing of has been read. -/
theorem clean_of_complaints_nil {n : Nat} (h : 0 < n) (r : Reading n Statement)
    (hc : (Declared.ofReading h r).complaints = []) :
    ∃ s rest, (Declared.ofReading h r).Clean s rest := by
  cases r with
  | done v cs after shorter => exact ⟨v, after, rfl, hc, rfl⟩
  | stuck p cs after within => simp [Declared.ofReading] at hc

theorem clean_declaration (t : Token) (after : List Token) (s : Statement) (rest : List Token) :
    (declaration t after).Clean s rest ↔
      (t.kind = .symbol .varWord ∧ (variableDeclaration after).Clean s rest) ∨
      (t.kind ≠ .symbol .varWord ∧ (statement (t :: after)).Clean s rest) := by
  rw [declaration]
  split
  · rename_i h
    simp [h, clean_ofReading]
  · rename_i h
    simp [h, clean_ofReading]

theorem clean_declaration_of_complaints_nil (t : Token) (after : List Token)
    (h : (declaration t after).complaints = []) : ∃ s rest, (declaration t after).Clean s rest := by
  rw [declaration] at h ⊢
  split
  · rename_i ht
    rw [if_pos ht] at h
    exact clean_of_complaints_nil _ _ h
  · rename_i ht
    rw [if_neg ht] at h
    exact clean_of_complaints_nil _ _ h

theorem clean_block_cons (t : Token) (after : List Token) (body : Declarations) (rest : List Token) :
    (block (t :: after)).Clean body rest ↔
      (t.kind = .symbol .rightBrace ∧ body = [] ∧ after = rest) ∨
      (t.kind ≠ .symbol .rightBrace ∧ ∃ s mid later, (declaration t after).Clean s mid ∧
        (block mid).Clean later rest ∧ some s :: later = body) := by
  rw [block]
  split
  · rename_i h
    simp [h, eq_comm]
  · rename_i h
    generalize hd : declaration t after = d
    obtain ⟨entry, cs, mid, shorter⟩ := d
    simp only [clean_within, clean_noting, clean_map]
    constructor
    · rintro ⟨rfl, later, hl, rfl⟩
      obtain ⟨s, _, hs⟩ := clean_declaration_of_complaints_nil t after (by rw [hd])
      rw [hd] at hs
      obtain ⟨rfl, -, rfl⟩ := hs
      exact .inr ⟨h, s, mid, later, ⟨rfl, rfl, rfl⟩, hl, rfl⟩
    · rintro (⟨h', -⟩ | ⟨-, s, _, later, ⟨rfl, rfl, rfl⟩, hl, rfl⟩)
      · exact absurd h' h
      · exact ⟨rfl, later, hl, rfl⟩

end Grammar

end Lox
