/-
# Where a semicolon is missing

When a semicolon is missing before a word that starts a statement, reading
gets stuck at this word. Recovery skips the token that reading got stuck at
before it looks for a place to go on, so the word is lost, and what follows it
is read without it. There are as many of these words in a program as there are
nodes made of them in its trees, so what is read is never the program that
starts with the word.

Key definitions: `Statement.words`, `Reading.StuckAt`, `Statement.unended?`.
Key theorems: `ProgramDerivation.words_eq`, `Grammar.stuckAt_phrase`,
`missing_semicolon_loses_word`.
-/
import Lox.Proofs.Recovery.Attempts
import Lox.Proofs.Recovery.Chunks
import Lox.Proofs.Recovery.Progress

namespace Lox

/-! ### The words that start statements -/

mutual

/-- How many of the words that start statements the statement was written with. -/
def Statement.words : Statement → Nat
  | .evaluate _ => 0
  | .print _ | .declare _ _ => 1
  | .block body => Declarations.words body
  | .branch _ yes none => 1 + yes.words
  | .branch _ yes (some no) => 1 + yes.words + no.words
  | .loop _ body => 1 + body.words

def Declarations.words : Declarations → Nat
  | [] => 0
  | none :: rest => Declarations.words rest
  | some s :: rest => s.words + Declarations.words rest

end

/-- How many of the tokens are words that start statements. -/
def starts (tokens : List Token) : Nat := tokens.countP (·.kind.startsStatement)

theorem starts_append (tokens more : List Token) :
    starts (tokens ++ more) = starts tokens + starts more := List.countP_append

theorem starts_cons_of_starts {t : Token} (h : t.kind.startsStatement = true) (rest : List Token) :
    starts (t :: rest) = 1 + starts rest := by
  have hc : starts (t :: rest) = starts rest + 1 :=
    List.countP_cons_of_pos (p := fun t : Token => t.kind.startsStatement) h
  rw [hc, Nat.add_comm]

theorem starts_cons_of_not {t : Token} (h : t.kind.startsStatement = false) (rest : List Token) :
    starts (t :: rest) = starts rest :=
  List.countP_cons_of_neg (by rw [h]; exact Bool.false_ne_true)

section Spelled

variable {s : Symbol} (t : Spelled s)

/-- A word that starts statements counts. -/
theorem Spelled.starts_word (h : s.startsStatement = true) (rest : List Token) :
    starts (t.1 :: rest) = 1 + starts rest :=
  starts_cons_of_starts (by rw [t.2]; exact h) rest

theorem Spelled.starts_other (h : s.startsStatement = false) (rest : List Token) :
    starts (t.1 :: rest) = starts rest :=
  starts_cons_of_not (by rw [t.2]; exact h) rest

end Spelled

theorem starts_nil : starts [] = 0 := rfl

theorem Kind.startsStatement_of_inExpression {k : Kind} (h : k.inExpression = true) :
    k.startsStatement = false := by
  cases k with
  | symbol s => cases s <;> first | rfl | cases h
  | _ => rfl

theorem starts_of_inExpression {tokens : List Token}
    (h : ∀ t ∈ tokens, t.kind.inExpression = true) : starts tokens = 0 := by
  refine List.countP_eq_zero.mpr fun t ht => ?_
  rw [Kind.startsStatement_of_inExpression (h t ht)]
  exact Bool.false_ne_true

theorem Kind.breaksLine_of_inExpression {k : Kind} (h : k.inExpression = true) :
    k.breaksLine = false := by
  cases k with
  | symbol s => cases s <;> first | rfl | cases h
  | _ => rfl

namespace Derivation

/-- The tokens of an expression can stand in one. -/
theorem inExpression {c : Category} (d : Derivation c) :
    ∀ t ∈ d.tokens, t.kind.inExpression = true := by
  induction d with
  | literal t value h =>
    refine List.forall_mem_singleton.mpr ?_
    cases hk : t.kind <;> rw [hk] at h <;> cases h <;> rfl
  | name t =>
    obtain ⟨x, hx⟩ := t.2
    exact List.forall_mem_singleton.mpr (by rw [hx]; rfl)
  | group left inner right ih =>
    refine List.forall_mem_cons.mpr ⟨by rw [left.2]; rfl, List.forall_mem_append.mpr ⟨ih, ?_⟩⟩
    exact List.forall_mem_singleton.mpr (by rw [right.2]; rfl)
  | unary sign inner ih =>
    exact List.forall_mem_cons.mpr
      ⟨Token.inExpression_of_isSign (sign.1.isSign_iff.mpr sign.2), ih⟩
  | operand o ih | tighter o ih | operation o ih => exact ih
  | @join level _ left operator right ihl ihr =>
    have hop : level.owns operator.1 = true := (level.owns_iff _).mpr operator.2
    exact List.forall_mem_append.mpr
      ⟨ihl, List.forall_mem_cons.mpr ⟨Level.inExpression_of_owns hop, ihr⟩⟩
  | assign target equals value ih =>
    obtain ⟨x, hx⟩ := target.2
    exact List.forall_mem_cons.mpr
      ⟨by rw [hx]; rfl, List.forall_mem_cons.mpr ⟨by rw [equals.2]; rfl, ih⟩⟩

theorem starts_tokens {c : Category} (d : Derivation c) : starts d.tokens = 0 :=
  starts_of_inExpression d.inExpression

end Derivation

theorem starts_optionalTokens (e : Option (Derivation .expression)) :
    starts (optionalTokens e) = 0 := by
  cases e with
  | none => rfl
  | some e => exact e.starts_tokens

namespace VariableDerivation

/-- The tokens between the name of a variable and the semicolon. -/
def valueTokens (v : VariableDerivation) : List Token :=
  match v.value with
  | none => []
  | some (equals, e) => equals.1 :: e.tokens

theorem tokens_eq (v : VariableDerivation) :
    v.tokens = v.word.1 :: v.name.1 :: v.valueTokens ++ [v.semicolon.1] := by
  obtain ⟨word, name, value, semicolon⟩ := v
  cases value <;> rfl

theorem inExpression (v : VariableDerivation) :
    ∀ t ∈ v.name.1 :: v.valueTokens, t.kind.inExpression = true := by
  obtain ⟨word, name, value, semicolon⟩ := v
  obtain ⟨x, hx⟩ := name.2
  refine List.forall_mem_cons.mpr ⟨by rw [hx]; rfl, ?_⟩
  cases value with
  | none => exact List.forall_mem_nil _
  | some value => exact List.forall_mem_cons.mpr ⟨by rw [value.1.2]; rfl, value.2.inExpression⟩

theorem starts_tokens (v : VariableDerivation) : starts v.tokens = 1 := by
  rw [v.tokens_eq, List.cons_append, v.word.starts_word rfl, starts_append,
    starts_of_inExpression v.inExpression, v.semicolon.starts_other rfl, starts_nil]

end VariableDerivation

/-- The words of the first clause of a `for`. -/
theorem StartDerivation.starts_tokens (d : StartDerivation) :
    starts d.tokens = (d.tree.map Statement.words).getD 0 := by
  cases d with
  | absent semicolon => exact semicolon.starts_other rfl []
  | declare v => exact v.starts_tokens
  | expression e semicolon =>
    rw [tokens, starts_append, e.starts_tokens, semicolon.starts_other rfl, starts_nil]
    rfl

/-- A `for` has the words of its first clause and its body, and its own. -/
theorem words_desugared (start : Option Statement) (condition step : Option Expression)
    (body : Statement) : (desugared start condition step body).words =
      1 + ((start.map Statement.words).getD 0 + body.words) := by
  cases start <;> cases step <;>
    simp only [desugared, Statement.words, Declarations.words, Option.map_none, Option.map_some,
      Option.getD_none, Option.getD_some] <;> omega

theorem Declarations.words_some (s : Statement) (rest : List Statement) :
    Declarations.words ((s :: rest).map some) = s.words + Declarations.words (rest.map some) := by
  rw [List.map_cons, Declarations.words]

mutual

/-- **Each word that starts a statement makes a node of the tree.** -/
theorem StatementDerivation.words_eq : ∀ {o : Bool} (d : StatementDerivation o),
    starts d.tokens = d.tree.words
  | _, .print word value semicolon => by
    rw [StatementDerivation.tokens, word.starts_word rfl, starts_append, value.starts_tokens,
      semicolon.starts_other rfl, starts_nil, StatementDerivation.tree, Statement.words]
  | _, .evaluate e semicolon => by
    rw [StatementDerivation.tokens, starts_append, e.starts_tokens, semicolon.starts_other rfl,
      starts_nil, StatementDerivation.tree, Statement.words]
  | _, .block left body right => by
    rw [StatementDerivation.tokens, left.starts_other rfl, starts_append, body.words_eq,
      right.starts_other rfl, starts_nil, StatementDerivation.tree, Statement.words, Nat.add_zero]
  | _, .ifThen word left condition right yes => by
    rw [StatementDerivation.tokens, word.starts_word rfl, left.starts_other rfl, starts_append,
      condition.starts_tokens, right.starts_other rfl, yes.words_eq, StatementDerivation.tree,
      Statement.words, Nat.zero_add]
  | _, .ifElse word left condition right yes elseWord no => by
    rw [StatementDerivation.tokens, word.starts_word rfl, left.starts_other rfl, starts_append,
      condition.starts_tokens, right.starts_other rfl, starts_append, yes.words_eq,
      elseWord.starts_other rfl, no.words_eq, StatementDerivation.tree, Statement.words,
      Nat.zero_add, Nat.add_assoc]
  | _, .whileLoop word left condition right body => by
    rw [StatementDerivation.tokens, word.starts_word rfl, left.starts_other rfl, starts_append,
      condition.starts_tokens, right.starts_other rfl, body.words_eq, StatementDerivation.tree,
      Statement.words, Nat.zero_add]
  | _, .forLoop word left start condition semicolon step right body => by
    rw [StatementDerivation.tokens, word.starts_word rfl, left.starts_other rfl, starts_append,
      start.starts_tokens, starts_append, starts_optionalTokens, semicolon.starts_other rfl,
      starts_append, starts_optionalTokens, right.starts_other rfl, body.words_eq,
      StatementDerivation.tree, words_desugared, Nat.zero_add, Nat.zero_add]

theorem ProgramDerivation.words_eq : ∀ d : ProgramDerivation,
    starts d.tokens = Declarations.words (d.trees.map some)
  | .nil => rfl
  | .declare v rest => by
    rw [ProgramDerivation.tokens, starts_append, v.starts_tokens, rest.words_eq,
      ProgramDerivation.trees, Declarations.words_some]
    rfl
  | .statement s rest => by
    rw [ProgramDerivation.tokens, starts_append, s.words_eq, rest.words_eq,
      ProgramDerivation.trees, Declarations.words_some]

end

/-! ### Where reading gets stuck -/

namespace Reading

variable {m n : Nat} {α β : Type} {p : Problem} {rest : List Token}

/-- The reading gets stuck at the front of `rest` without another complaint. -/
def StuckAt (r : Reading n α) (p : Problem) (rest : List Token) : Prop :=
  ∃ within, r = .stuck p [] rest within

theorem StuckAt.within {r : Reading m α} (h : r.StuckAt p rest) (hm : m ≤ n) :
    (r.within hm).StuckAt p rest := by
  obtain ⟨w, rfl⟩ := h
  exact ⟨Nat.le_trans w hm, rfl⟩

theorem StuckAt.past {r : Reading n α} (h : r.StuckAt p rest) : r.past.StuckAt p rest :=
  h.within (Nat.le_succ n)

theorem StuckAt.map {r : Reading n α} (h : r.StuckAt p rest) (f : α → β) :
    (r.map f).StuckAt p rest := by
  obtain ⟨w, rfl⟩ := h
  exact ⟨w, rfl⟩

/-- After a clean phrase, reading gets stuck where the next one does. -/
theorem Clean.stuckAt_andThen {r : Reading n α} {v : α} {mid : List Token} (h : r.Clean v mid)
    {next : (rest : List Token) → rest.length < n → α → Reading rest.length β}
    (hn : ∀ shorter, (next mid shorter v).StuckAt p rest) : (r.andThen next).StuckAt p rest := by
  obtain ⟨shorter, rfl⟩ := h
  obtain ⟨w, hw⟩ := hn shorter
  refine ⟨Nat.le_trans w (Nat.le_of_lt shorter), ?_⟩
  rw [andThen, andPerhaps_done, hw]
  rfl

end Reading

theorem stuckAt_expect {s : Symbol} {t : Token} (h : t.kind ≠ .symbol s) (p : Problem)
    (rest : List Token) : (expect s p (t :: rest)).StuckAt p (t :: rest) := by
  rw [expect, if_neg h]
  exact ⟨Nat.le_refl _, rfl⟩

/-- What is complained about when there is something else for the semicolon of a statement. -/
def Statement.unended? : Statement → Option Problem
  | .print _ => some .semicolonAfterValue
  | .evaluate _ => some .semicolonAfterExpression
  | .declare _ _ => some .semicolonAfterVariable
  | _ => none

theorem unended?_desugared (start : Option Statement) (condition step : Option Expression)
    (body : Statement) : (desugared start condition step body).unended? = none := by
  cases start <;> cases step <;> rfl

namespace Grammar

section Stuck

variable {word : Symbol} (t : Spelled word) (behind : List Token)

/-- An expression, and for the symbol after it a word that cannot go on with it. -/
theorem stuckAt_expression_expect {β : Type} (e : Derivation .expression)
    (hlevel : word.level? = none) (he : word ≠ .equal) {s : Symbol} (hs : word ≠ s) (p : Problem)
    (f : Expression → β) :
    ((expression (e.tokens ++ t.1 :: behind)).andThen fun rest _ v =>
      (expect s p rest).map fun _ => f v).StuckAt p (t.1 :: behind) := by
  have hk : t.1.kind ≠ .symbol s := by
    rw [t.2]
    exact fun h => hs (Kind.symbol.inj h)
  exact (e.clean_before t hlevel he behind).stuckAt_andThen fun _ =>
    (stuckAt_expect hk p behind).map _

theorem stuckAt_variableDeclaration (v : VariableDerivation) (hlevel : word.level? = none)
    (he : word ≠ .equal) (hs : word ≠ .semicolon) :
    (variableDeclaration (v.name.1 :: v.valueTokens ++ t.1 :: behind)).StuckAt
      .semicolonAfterVariable (t.1 :: behind) := by
  obtain ⟨_, name, value, _⟩ := v
  obtain ⟨x, hx⟩ := name.2
  have hname : ∀ after, variableDeclaration (name.1 :: after) = (initializer name.1 after).past := by
    intro after
    rw [variableDeclaration, hx]
  rw [List.cons_append, hname]
  apply Reading.StuckAt.past
  cases value with
  | none =>
    have hequal : ¬ t.1.kind = .symbol .equal := by
      rw [t.2]
      exact fun h => he (Kind.symbol.inj h)
    have hk : t.1.kind ≠ .symbol .semicolon := by
      rw [t.2]
      exact fun h => hs (Kind.symbol.inj h)
    show (initializer name.1 (t.1 :: behind)).StuckAt _ _
    rw [initializer, if_neg hequal]
    exact (stuckAt_expect hk _ behind).map _
  | some value =>
    obtain ⟨equals, e⟩ := value
    show (initializer name.1 (equals.1 :: (e.tokens ++ t.1 :: behind))).StuckAt _ _
    rw [initializer, if_pos equals.2]
    exact (stuckAt_expression_expect t behind e hlevel he hs _ _).past

theorem statement_of_opens {head : Token} {after : List Token}
    (h : ∀ s, head.kind = .symbol s → s.opensExpression = true) :
    statement (head :: after) = expressionStatement (head :: after) := by
  rw [statement]
  split <;> rename_i hk <;> first | rfl | exact absurd (h _ hk) (by decide)

theorem stuckAt_phrase_of_variable (v : VariableDerivation) (hlevel : word.level? = none)
    (he : word ≠ .equal) (hs : word ≠ .semicolon) :
    (phrase v.word.1 (v.name.1 :: v.valueTokens ++ t.1 :: behind)).StuckAt
      .semicolonAfterVariable (t.1 :: behind) := by
  rw [phrase, if_pos v.word.2]
  exact (stuckAt_variableDeclaration t behind v hlevel he hs).past

/-- The statement that the semicolon is missing of gets stuck, as far as it has one of its own. -/
theorem stuckAt_phrase_of_statement {o : Bool} (d : StatementDerivation o) {x : List Token}
    {semicolon : Token} (hd : d.tokens = x ++ [semicolon]) {p : Problem}
    (hp : d.tree.unended? = some p) (hlevel : word.level? = none) (he : word ≠ .equal)
    (hs : word ≠ .semicolon) :
    ∃ head after, x ++ t.1 :: behind = head :: after ∧
      (phrase head after).StuckAt p (t.1 :: behind) := by
  cases d with
  | print first value last =>
    obtain rfl := Option.some.inj hp
    rw [StatementDerivation.tokens, ← List.cons_append] at hd
    obtain ⟨rfl, -⟩ := List.append_inj' hd rfl
    refine ⟨first.1, value.tokens ++ t.1 :: behind, rfl, ?_⟩
    rw [phrase, if_neg (by rw [first.2]; decide), statement, first.2]
    exact (stuckAt_expression_expect t behind value hlevel he hs _ _).past
  | evaluate e last =>
    obtain rfl := Option.some.inj hp
    rw [StatementDerivation.tokens] at hd
    obtain ⟨rfl, -⟩ := List.append_inj' hd rfl
    obtain ⟨head, ts, ht, ho⟩ := e.exists_head
    have hstuck := stuckAt_expression_expect t behind e hlevel he hs .semicolonAfterExpression
      Statement.evaluate
    rw [ht] at hstuck ⊢
    refine ⟨head, ts ++ t.1 :: behind, rfl, ?_⟩
    have hvar : ¬ head.kind = .symbol .varWord := fun hk => absurd (ho _ hk) (by decide)
    rw [phrase, if_neg hvar, statement_of_opens ho]
    exact hstuck
  | block | ifThen | ifElse | whileLoop => cases hp
  | forLoop =>
    rw [StatementDerivation.tree, unended?_desugared] at hp
    cases hp

/-- **Reading gets stuck where the semicolon is missing.** -/
theorem stuckAt_phrase {x : List Token} {semicolon : Token} {s : Statement} {p : Problem}
    (hread : program (x ++ [semicolon]) = ([some s], [])) (hp : s.unended? = some p)
    (hlevel : word.level? = none) (he : word ≠ .equal) (hs : word ≠ .semicolon) :
    ∃ head after, x ++ t.1 :: behind = head :: after ∧
      (phrase head after).StuckAt p (t.1 :: behind) := by
  obtain ⟨d, hd⟩ := derived_program _ (congrArg Prod.snd hread)
  have htrees : d.trees.map some = [some s] := by
    have hprogram := d.program
    rw [hd, hread] at hprogram
    exact (congrArg Prod.fst hprogram).symm
  cases d with
  | nil => cases htrees
  | declare v rest =>
    cases rest with
    | declare | statement => cases htrees
    | nil =>
      obtain rfl : v.tree = s := Option.some.inj (List.cons.inj htrees).1
      obtain rfl : .semicolonAfterVariable = p := Option.some.inj hp
      rw [ProgramDerivation.tokens, ProgramDerivation.tokens, List.append_nil, v.tokens_eq] at hd
      obtain ⟨rfl, -⟩ := List.append_inj' hd rfl
      exact ⟨_, _, rfl, stuckAt_phrase_of_variable t behind v hlevel he hs⟩
  | statement d rest =>
    cases rest with
    | declare | statement => cases htrees
    | nil =>
      obtain rfl : d.tree = s := Option.some.inj (List.cons.inj htrees).1
      rw [ProgramDerivation.tokens, ProgramDerivation.tokens, List.append_nil] at hd
      exact stuckAt_phrase_of_statement t behind d hd hp hlevel he hs

end Stuck

/-! ### What recovery loses -/

/-- The token that reading got stuck at is lost. -/
theorem recover_loses (t : Token) (behind : List Token) :
    ∃ lost, t :: behind = t :: lost ++ recover (t :: behind) := by
  obtain ⟨lost, hl⟩ := recoverAfter_suffix t behind
  exact ⟨lost, by rw [List.cons_append, recover, hl]⟩

end Grammar

/-- What stands between the word of a statement and its semicolon is on one line. -/
theorem oneLine_of_inExpression {word : Symbol} (t : Spelled word)
    (hw : (Kind.symbol word).breaksLine = false)
    {tokens : List Token} (h : ∀ u ∈ tokens, u.kind.inExpression = true)
    (semicolon : Spelled .semicolon) : OneLine (t.1 :: tokens ++ [semicolon.1]) := by
  refine oneLine_append semicolon.2 (List.forall_mem_cons.mpr ⟨?_, fun u hu => ?_⟩) fun u hu => ?_
  · rw [t.2]
    exact hw
  · exact Kind.breaksLine_of_inExpression (h u hu)
  · exact Kind.startsStatement_of_inExpression (h u hu)

/-- Recovery from the word of a declaration or a print loses that statement and no more. -/
theorem ProgramDerivation.recover_tokens (d : ProgramDerivation) {t : Token} {behind : List Token}
    (hd : d.tokens = t :: behind) (ht : t.kind = .symbol .varWord ∨ t.kind = .symbol .printWord) :
    ∃ rest : ProgramDerivation, Grammar.recover (t :: behind) = rest.tokens ∧
      rest.trees = d.trees.tail := by
  cases d with
  | nil => cases hd
  | declare v rest =>
    rw [← hd, tokens, v.tokens_eq]
    have hline := oneLine_of_inExpression v.word rfl v.inExpression v.semicolon
    exact ⟨rest, hline.recover_append _, rfl⟩
  | statement s rest =>
    cases s with
    | print word value semicolon =>
      rw [← hd, tokens, StatementDerivation.tokens, ← List.cons_append]
      exact ⟨rest,
        (oneLine_of_inExpression word rfl value.inExpression semicolon).recover_append _, rfl⟩
    | evaluate e semicolon =>
      obtain ⟨head, ts, hhead, ho⟩ := e.exists_head
      rw [tokens, StatementDerivation.tokens, hhead] at hd
      obtain rfl : head = t := (List.cons.inj hd).1
      rcases ht with hk | hk <;> exact absurd (ho _ hk) (by decide)
    | block word | ifThen word | ifElse word | whileLoop word | forLoop word =>
      obtain rfl : word.1 = t := (List.cons.inj hd).1
      rcases ht with hk | hk <;> rw [word.2] at hk <;> cases hk

theorem Spelled.isEnd_eq_false {s : Symbol} (t : Spelled s) : t.1.isEnd = false := by
  rw [Token.isEnd, t.2]

/-- **A missing semicolon loses the next word.** When the semicolon of a variable declaration, a
print or an expression statement `x` is missing, and a program that starts with one of the words
that start statements follows, reading complains about this word, leaves the statement out, and goes
on at a later place. Of a program that starts with a declaration or a print only this statement is
lost, and there is no other diagnostic. But the program that follows is never read as it would be
alone: either there are other diagnostics, or other statements come of it. -/
theorem missing_semicolon_loses_word {x behind : List Token} {first last : Token}
    (semicolon : Spelled .semicolon) {s : Statement} {p : Problem} (hl : last.isEnd = true)
    (hx : ∀ t ∈ x, t.isEnd = false) (hy : ∀ t ∈ first :: behind, t.isEnd = false)
    (hd : (parse (x ++ [semicolon.1, last])).diagnostics = [])
    (hs : (parse (x ++ [semicolon.1, last])).declarations = [some s]) (hp : s.unended? = some p)
    (hfirst : ∃ word ∈ [Symbol.varWord, .forWord, .ifWord, .whileWord, .printWord],
      first.kind = .symbol word)
    (halone : (parse (first :: behind ++ [last])).diagnostics = []) :
    let whole := parse (x ++ first :: behind ++ [last])
    let alone := parse (first :: behind ++ [last])
    let recovered := parse (Grammar.recover (first :: behind) ++ [last])
    (∃ lost, first :: behind = first :: lost ++ Grammar.recover (first :: behind)) ∧
    whole.declarations = none :: recovered.declarations ∧
    whole.diagnostics =
      Complaint.diagnostic last.line ⟨some first, p⟩ :: recovered.diagnostics ∧
    (first.kind = .symbol .varWord ∨ first.kind = .symbol .printWord →
      recovered.declarations = alone.declarations.tail ∧ recovered.diagnostics = []) ∧
    ¬ (whole.declarations = none :: alone.declarations ∧ whole.diagnostics.length = 1) := by
  intro whole alone recovered
  obtain ⟨lost, hlost⟩ := Grammar.recover_loses first behind
  obtain ⟨word, hword, hk⟩ := hfirst
  have hwords : ∀ word ∈ [Symbol.varWord, .forWord, .ifWord, .whileWord, .printWord],
      word.startsStatement = true ∧ word.level? = none ∧ word ≠ .equal ∧ word ≠ .semicolon := by
    decide
  obtain ⟨hstarts, hlevel, he, hne⟩ := hwords word hword
  have hread : Grammar.program (x ++ [semicolon.1]) = ([some s], []) := by
    have hfront : ∀ t ∈ x ++ [semicolon.1], t.isEnd = false :=
      List.forall_mem_append.mpr ⟨hx, List.forall_mem_singleton.mpr semicolon.isEnd_eq_false⟩
    have hparse := parse_of_first_end hfront hl []
    rw [List.append_assoc, List.singleton_append] at hparse
    rw [hparse] at hd hs
    exact Prod.ext hs (List.map_eq_nil_iff.mp hd)
  -- the three inputs
  have hwhole := parse_of_first_end (List.forall_mem_append.mpr ⟨hx, hy⟩) hl []
  have hsole := parse_of_first_end hy hl []
  have hrest := parse_of_first_end (fun t ht => hy t ((Grammar.recover_suffix _).subset ht)) hl []
  obtain ⟨head, after, hhead, _, hstuck⟩ :=
    Grammar.stuckAt_phrase ⟨first, hk⟩ behind hread hp hlevel he hne
  have hprogram := Grammar.program_of_stuck hstuck
  rw [← hhead] at hprogram
  have hentries : whole.declarations = none :: recovered.declarations := by
    simp only [whole, recovered, hwhole, hrest, hprogram]
  have hdiagnostics : whole.diagnostics =
      Complaint.diagnostic last.line ⟨some first, p⟩ :: recovered.diagnostics := by
    simp only [whole, recovered, hwhole, hrest, hprogram, Parse.diagnostics]
    rfl
  obtain ⟨d, hderived⟩ := derived_program (first :: behind) (by
    rw [hsole] at halone
    exact List.map_eq_nil_iff.mp halone)
  have htrees : alone.declarations = d.trees.map some := by
    simp only [alone, hsole, ← hderived, d.program]
  refine ⟨⟨lost, hlost⟩, hentries, hdiagnostics, fun hw => ?_, ?_⟩
  · obtain ⟨rest, hrecover, htail⟩ := d.recover_tokens hderived hw
    have hsuch : recovered = ⟨rest.trees.map some, [], last.line⟩ := by
      simp only [recovered, hrest, hrecover, rest.program]
    rw [hsuch, htrees, htail, List.map_tail]
    exact ⟨rfl, rfl⟩
  · rintro ⟨hsame, hone⟩
    rw [hdiagnostics] at hone
    have hnone : recovered.diagnostics = [] := List.length_eq_zero_iff.mp (Nat.succ.inj hone)
    obtain ⟨rest, hrecover⟩ := derived_program (Grammar.recover (first :: behind)) (by
      simp only [recovered, hrest] at hnone
      exact List.map_eq_nil_iff.mp hnone)
    have hmissed : recovered.declarations = rest.trees.map some := by
      simp only [recovered, hrest, ← hrecover, rest.program]
    rw [hentries, hmissed, htrees] at hsame
    -- the same trees have the same number of words, but the first word is lost
    have hcount := congrArg Declarations.words (List.cons.inj hsame).2
    rw [← rest.words_eq, ← d.words_eq, hrecover, hderived,
      starts_cons_of_starts (by rw [hk]; exact hstarts)] at hcount
    have hbehind : starts behind = starts (lost ++ Grammar.recover (first :: behind)) :=
      congrArg starts (List.cons.inj hlost).2
    rw [starts_append] at hbehind
    omega

/-- `var a print nil; nil;`, where only the last statement is read. -/
theorem missing_semicolon_loses_word_of_print :
    let x : List Token := [⟨.symbol .varWord, "var", 1⟩, ⟨.identifier "a", "a", 1⟩]
    let word : Token := ⟨.symbol .printWord, "print", 1⟩
    let nothing : Token := ⟨.symbol .nilWord, "nil", 1⟩
    let semicolon : Spelled .semicolon := ⟨⟨.symbol .semicolon, ";", 1⟩, rfl⟩
    let behind := [nothing, semicolon.1, nothing, semicolon.1]
    let last : Token := ⟨.endOfInput, "", 1⟩
    let whole := parse (x ++ word :: behind ++ [last])
    last.isEnd = true ∧ (∀ t ∈ x, t.isEnd = false) ∧ (∀ t ∈ word :: behind, t.isEnd = false) ∧
      (parse (x ++ [semicolon.1, last])).diagnostics = [] ∧
      (parse (x ++ [semicolon.1, last])).declarations = [some (.declare ⟨.identifier "a", "a", 1⟩ none)] ∧
      (parse (word :: behind ++ [last])).diagnostics = [] ∧
      whole.declarations = [none, some (.evaluate (.literal .nil))] ∧
      whole.diagnostics = [.static 1 " at 'print'" "Expect ';' after variable declaration."] := by
  intro x word nothing semicolon behind last whole
  have hone : parse (x ++ [semicolon.1, last]) =
      ⟨[some (.declare ⟨.identifier "a", "a", 1⟩ none)], [], 1⟩ := by cbv
  have halone : parse (word :: behind ++ [last]) =
      ⟨[some (.print (.literal .nil)), some (.evaluate (.literal .nil))], [], 1⟩ := by cbv
  have hx : ∀ t ∈ x, t.isEnd = false := by decide
  have hy : ∀ t ∈ word :: behind, t.isEnd = false := by decide
  obtain ⟨-, hentries, hdiagnostics, hnext, -⟩ :=
    missing_semicolon_loses_word semicolon rfl hx hy (by rw [hone]; rfl) (by rw [hone]) rfl
      ⟨.printWord, by decide, rfl⟩ (by rw [halone]; rfl)
  obtain ⟨htail, hnone⟩ := hnext (.inr rfl)
  refine ⟨rfl, hx, hy, by rw [hone]; rfl, by rw [hone], by rw [halone]; rfl, ?_, ?_⟩
  · rw [hentries, htail, halone]
    rfl
  · rw [hdiagnostics, hnone]
    rfl

/-- `var a print nil;` is not read as what has the print statement in it, though there is only one
diagnostic. -/
theorem print_lost_after_variable :
    let x : List Token := [⟨.symbol .varWord, "var", 1⟩, ⟨.identifier "a", "a", 1⟩]
    let semicolon : Token := ⟨.symbol .semicolon, ";", 1⟩
    let y : List Token := [⟨.symbol .printWord, "print", 1⟩, ⟨.symbol .nilWord, "nil", 1⟩, semicolon]
    let last : Token := ⟨.endOfInput, "", 1⟩
    (parse (x ++ [semicolon, last])).diagnostics = [] ∧
      (parse (x ++ [semicolon, last])).declarations = [some (.declare ⟨.identifier "a", "a", 1⟩ none)] ∧
      (parse (y ++ [last])).diagnostics = [] ∧
      (parse (y ++ [last])).declarations = [some (.print (.literal .nil))] ∧
      (parse (x ++ y ++ [last])).diagnostics =
        [.static 1 " at 'print'" "Expect ';' after variable declaration."] ∧
      (parse (x ++ y ++ [last])).declarations ≠ none :: (parse (y ++ [last])).declarations := by
  intro x semicolon y last
  have hone : parse (x ++ [semicolon, last]) =
      ⟨[some (.declare ⟨.identifier "a", "a", 1⟩ none)], [], 1⟩ := by cbv
  have halone : parse (y ++ [last]) = ⟨[some (.print (.literal .nil))], [], 1⟩ := by cbv
  have hwhole : parse (x ++ y ++ [last]) =
      ⟨[none], [⟨some ⟨.symbol .printWord, "print", 1⟩, .semicolonAfterVariable⟩], 1⟩ := by cbv
  rw [hone, halone, hwhole]
  exact ⟨rfl, rfl, rfl, rfl, rfl, fun h => by cases h⟩

end Lox
