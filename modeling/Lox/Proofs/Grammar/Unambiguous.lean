/-
# The grammar is unambiguous, and is what is read

No two derivations derive the same tokens (`ProgramDerivation.eq_of_tokens_eq`).
Two derivations of the same tokens are read alike, so they stand for the same
tree. The tree of an expression determines how many tokens each part of it
was written with (`Expression.width`), hence the derivation; statements are told
apart by their first tokens. With that a program is read without a diagnostic
exactly when it has a derivation, and as its trees (`parse_accepts_derivable`).
-/
import Lox.Proofs.Grammar.Kept

namespace Lox

/-- The number of tokens an expression is written with. -/
def Expression.width : Expression → Nat
  | literal _ | name _ => 1
  | group inner => inner.width + 2
  | assign _ value => value.width + 2
  | unary _ operand => operand.width + 1
  | binary l _ r | logical l _ r => l.width + (r.width + 1)

namespace Derivation

theorem width_node (level : Level) (l : Expression) (t : Token) (r : Expression) :
    (node level l t r).width = l.width + (r.width + 1) := by
  cases level <;> rfl

theorem node_inj {level level' : Level} {l l' : Expression} {t t' : Token} {r r' : Expression}
    (h : node level l t r = node level' l' t' r') : l = l' ∧ t = t' ∧ r = r' := by
  cases level <;> cases level' <;> cases h <;> exact ⟨rfl, rfl, rfl⟩

theorem length_tokens {c : Category} (d : Derivation c) : d.tokens.length = d.tree.width := by
  induction d with
  | literal | name => rfl
  | group left inner right ih => simp [tokens, tree, Expression.width, ih]
  | unary sign inner ih => simp [tokens, tree, Expression.width, ih]
  | operand o ih | tighter o ih | operation o ih => exact ih
  | join left operator right ihl ihr =>
    rw [tree, width_node, tokens, List.length_append, List.length_cons, ihl, ihr]
  | assign target equals value ih => simp [tokens, tree, Expression.width, ih]

/-- Whether the operators of `level` stand at the top of some trees of the category. -/
def Admits (level : Level) : Category → Prop
  | .expression => True
  | .operation levels => level ∈ levels
  | .operand => False

theorem admits_of_tree_eq {c : Category} (d : Derivation c) {level : Level} {l r : Expression}
    (t : OperatorToken level) (h : d.tree = node level l t.1 r) : Admits level c := by
  induction d with
  | literal | name | group | unary => cases level <;> cases h
  | operand o ih => exact (ih h).elim
  | tighter o ih => exact List.mem_cons_of_mem _ (ih h)
  | @join level' levels left operator right =>
    obtain ⟨s, hk, hs⟩ := t.2
    obtain ⟨s', hk', hs'⟩ := operator.2
    rw [(node_inj h).2.1, hk] at hk'
    cases hk'
    cases hs.symm.trans hs'
    exact List.mem_cons_self
  | operation | assign => trivial

theorem expression_of_tree_assign {c : Category} (d : Derivation c) {t : Token} {v : Expression}
    (h : d.tree = .assign t v) : c = .expression := by
  induction d with
  | literal | name | group | unary => cases h
  | operand o ih | tighter o ih | operation o ih => cases ih h
  | @join level =>
    cases level <;> cases h
  | assign => rfl

/-- The levels of an operation are different ones. -/
def Distinct : Category → Prop
  | .operation levels => levels.Nodup
  | _ => True

/-- A derivation is determined by its tree and its tokens. -/
theorem eq_of_tree_eq {c : Category} (d d' : Derivation c) (hc : Distinct c)
    (ht : d.tree = d'.tree) (hk : d.tokens = d'.tokens) : d = d' := by
  induction d with
  | literal t value h =>
    cases d' with
    | literal t' value' h' =>
      cases hk
      cases ht
      rfl
    | _ => cases ht
  | name t =>
    cases d' with
    | name t' =>
      obtain rfl := Subtype.ext (List.cons.inj hk).1
      rfl
    | _ => cases ht
  | group left inner right ih =>
    cases d' with
    | group left' inner' right' =>
      obtain ⟨hl, hrest⟩ := List.cons.inj hk
      obtain ⟨hi, hr⟩ := List.append_inj' hrest rfl
      obtain rfl := Subtype.ext hl
      obtain rfl := Subtype.ext (List.cons.inj hr).1
      cases ih inner' trivial (Expression.group.inj ht) hi
      rfl
    | _ => cases ht
  | unary sign inner ih =>
    cases d' with
    | unary sign' inner' =>
      obtain ⟨hs, hi⟩ := List.cons.inj hk
      obtain rfl := Subtype.ext hs
      cases ih inner' trivial (Expression.unary.inj ht).2 hi
      rfl
    | _ => cases ht
  | operand o ih =>
    cases d' with
    | operand o' =>
      cases ih o' trivial ht hk
      rfl
  | @tighter level levels o ih =>
    cases d' with
    | tighter o' =>
      cases ih o' (List.nodup_cons.mp hc).2 ht hk
      rfl
    | join left operator right =>
      exact absurd (admits_of_tree_eq o operator ht) (List.nodup_cons.mp hc).1
  | @join level levels left operator right ihl ihr =>
    cases d' with
    | tighter o' =>
      exact absurd (admits_of_tree_eq o' operator ht.symm) (List.nodup_cons.mp hc).1
    | join left' operator' right' =>
      obtain ⟨hl, ho, hr⟩ := node_inj ht
      have hlen : left.tokens.length = left'.tokens.length := by
        rw [length_tokens, length_tokens, hl]
      obtain ⟨hkl, hk'⟩ := List.append_inj hk hlen
      obtain rfl := Subtype.ext ho
      cases ihl left' hc hl hkl
      cases ihr right' (List.nodup_cons.mp hc).2 hr (List.cons.inj hk').2
      rfl
  | operation o ih =>
    cases d' with
    | operation o' =>
      cases ih o' precedence_nodup ht hk
      rfl
    | assign target equals value => cases expression_of_tree_assign o ht
  | assign target equals value ih =>
    cases d' with
    | operation o' => cases expression_of_tree_assign o' ht.symm
    | assign target' equals' value' =>
      obtain ⟨htarget, hk'⟩ := List.cons.inj hk
      obtain ⟨he, hv⟩ := List.cons.inj hk'
      obtain rfl := Subtype.ext htarget
      obtain rfl := Subtype.ext he
      cases ih value' trivial (Expression.assign.inj ht).2 hv
      rfl

/-- An expression before a symbol that cannot go on with it is derived in one way. -/
theorem eq_before {e e' : Derivation .expression} {s : Symbol} {t t' : Spelled s}
    (hs : s.level? = none) (he : s ≠ .equal) {rest rest' : List Token}
    (h : e.tokens ++ t.1 :: rest = e'.tokens ++ t'.1 :: rest') :
    e = e' ∧ t = t' ∧ rest = rest' := by
  have hc := e.clean_before t hs he rest
  have hc' := e'.clean_before t' hs he rest'
  rw [← h] at hc'
  obtain ⟨htree, hr⟩ := hc.unique hc'
  obtain ⟨ht, hr⟩ := List.cons.inj hr
  subst hr
  rw [ht] at h
  exact ⟨eq_of_tree_eq e e' trivial htree (List.append_cancel_right h), Subtype.ext ht, rfl⟩

end Derivation

theorem Spelled.ne {s s' : Symbol} (t : Spelled s) (t' : Spelled s') (h : s ≠ s') : t.1 ≠ t'.1 := by
  intro ht
  have hk := t.2
  rw [ht, t'.2] at hk
  cases hk
  exact h rfl

theorem Derivation.ne_cons (e : Derivation .expression) {s : Symbol} (t : Spelled s)
    (h : s.opensExpression = false) (rest after : List Token) : e.tokens ++ rest ≠ t.1 :: after := by
  obtain ⟨u, ts, hu, ho⟩ := e.exists_head
  rw [hu]
  intro heq
  have := ho s (by rw [(List.cons.inj heq).1, t.2])
  rw [h] at this
  cases this

theorem VariableDerivation.eq_before {v v' : VariableDerivation} {rest rest' : List Token}
    (h : v.tokens ++ rest = v'.tokens ++ rest') : v = v' ∧ rest = rest' := by
  obtain ⟨word, name, value, semicolon⟩ := v
  obtain ⟨word', name', value', semicolon'⟩ := v'
  cases value with
  | none =>
    cases value' with
    | none =>
      simp only [tokens, List.cons_append, List.nil_append, List.cons.injEq] at h
      obtain ⟨hw, hn, hs, hr⟩ := h
      obtain rfl := Subtype.ext hw
      obtain rfl := Subtype.ext hn
      obtain rfl := Subtype.ext hs
      exact ⟨rfl, hr⟩
    | some value' =>
      simp only [tokens, List.cons_append, List.nil_append, List.cons.injEq] at h
      exact absurd h.2.2.1 (semicolon.ne value'.1 (by decide))
  | some value =>
    cases value' with
    | none =>
      simp only [tokens, List.cons_append, List.nil_append, List.cons.injEq] at h
      exact absurd h.2.2.1 (value.1.ne semicolon' (by decide))
    | some value' =>
      obtain ⟨equals, e⟩ := value
      obtain ⟨equals', e'⟩ := value'
      simp only [tokens, List.cons_append, List.append_assoc, List.nil_append, List.cons.injEq] at h
      obtain ⟨hw, hn, he, h⟩ := h
      obtain ⟨rfl, rfl, hr⟩ := Derivation.eq_before rfl (by decide) h
      obtain rfl := Subtype.ext hw
      obtain rfl := Subtype.ext hn
      obtain rfl := Subtype.ext he
      exact ⟨rfl, hr⟩

theorem VariableDerivation.ne_cons (v : VariableDerivation) {s : Symbol} (t : Spelled s)
    (h : s ≠ .varWord) (rest after : List Token) : v.tokens ++ rest ≠ t.1 :: after := by
  obtain ⟨_, hv, -⟩ := v.clean rest
  rw [hv]
  exact fun heq => v.word.ne t h.symm (List.cons.inj heq).1

theorem VariableDerivation.ne_expression (v : VariableDerivation) (e : Derivation .expression)
    (rest after : List Token) : v.tokens ++ rest ≠ e.tokens ++ after := by
  obtain ⟨_, hv, -⟩ := v.clean rest
  rw [hv]
  exact (e.ne_cons v.word rfl _ _).symm

theorem StartDerivation.eq_before {d d' : StartDerivation} {rest rest' : List Token}
    (h : d.tokens ++ rest = d'.tokens ++ rest') : d = d' ∧ rest = rest' := by
  cases d with
  | absent semicolon =>
    cases d' with
    | absent semicolon' =>
      obtain rfl := Subtype.ext (List.cons.inj h).1
      exact ⟨rfl, (List.cons.inj h).2⟩
    | declare v => exact (v.ne_cons semicolon (by decide) _ _ h.symm).elim
    | expression e =>
      rw [tokens, tokens, List.append_assoc] at h
      exact (e.ne_cons semicolon rfl _ _ h.symm).elim
  | declare v =>
    cases d' with
    | absent semicolon' => exact (v.ne_cons semicolon' (by decide) _ _ h).elim
    | declare v' =>
      obtain ⟨rfl, hr⟩ := VariableDerivation.eq_before h
      exact ⟨rfl, hr⟩
    | expression e =>
      rw [tokens, tokens, List.append_assoc] at h
      exact (v.ne_expression e _ _ h).elim
  | expression e semicolon =>
    rw [tokens, List.append_assoc] at h
    cases d' with
    | absent semicolon' => exact (e.ne_cons semicolon' rfl _ _ h).elim
    | declare v => exact (v.ne_expression e _ _ h.symm).elim
    | expression e' semicolon' =>
      rw [tokens, List.append_assoc] at h
      obtain ⟨rfl, rfl, hr⟩ := Derivation.eq_before rfl (by decide) h
      exact ⟨rfl, hr⟩

theorem optional_eq_before {c c' : Option (Derivation .expression)} {s : Symbol} (t t' : Spelled s)
    (hs : s.level? = none) (he : s ≠ .equal) (ho : s.opensExpression = false)
    {rest rest' : List Token}
    (h : optionalTokens c ++ t.1 :: rest = optionalTokens c' ++ t'.1 :: rest') :
    c = c' ∧ t = t' ∧ rest = rest' := by
  cases c with
  | none =>
    cases c' with
    | none => exact ⟨rfl, Subtype.ext (List.cons.inj h).1, (List.cons.inj h).2⟩
    | some e' => exact (e'.ne_cons t ho _ _ h.symm).elim
  | some e =>
    cases c' with
    | none => exact (e.ne_cons t' ho _ _ h).elim
    | some e' =>
      obtain ⟨rfl, rfl, hr⟩ := Derivation.eq_before hs he h
      exact ⟨rfl, rfl, hr⟩

/-- The keyword or brace that a token starts a statement with. -/
def leadOf (t : Token) : Option Symbol :=
  match t.kind with
  | .symbol s => if Grammar.leads s then some s else none
  | _ => none

namespace StatementDerivation

/-- The keyword or brace that the statement starts with; an expression statement has none. -/
def lead : {o : Bool} → StatementDerivation o → Option Symbol
  | _, print .. => some .printWord
  | _, evaluate .. => none
  | _, block .. => some .leftBrace
  | _, ifThen .. | _, ifElse .. => some .ifWord
  | _, whileLoop .. => some .whileWord
  | _, forLoop .. => some .forWord

theorem leadOf_spelled {s : Symbol} (t : Spelled s) :
    leadOf t.1 = if Grammar.leads s then some s else none := by
  rw [leadOf, t.2]

theorem exists_lead {o : Bool} (d : StatementDerivation o) :
    ∃ t ts, d.tokens = t :: ts ∧ leadOf t = d.lead := by
  cases d with
  | evaluate e semicolon =>
    obtain ⟨t, ts, h, ho⟩ := e.exists_head
    refine ⟨t, ts ++ [semicolon.1], by rw [tokens, h]; rfl, ?_⟩
    unfold leadOf
    split
    · rename_i s hs
      have := ho s hs
      rw [if_neg (by cases s <;> first | exact Bool.false_ne_true | cases this)]
      rfl
    · rfl
  | print word | block word | ifThen word | ifElse word | whileLoop word | forLoop word =>
    exact ⟨word.1, _, rfl, leadOf_spelled word⟩

theorem lead_eq {o o' : Bool} {d : StatementDerivation o} {d' : StatementDerivation o'}
    {rest rest' : List Token} (h : d.tokens ++ rest = d'.tokens ++ rest') : d.lead = d'.lead := by
  obtain ⟨t, ts, ht, hl⟩ := d.exists_lead
  obtain ⟨t', ts', ht', hl'⟩ := d'.exists_lead
  rw [ht, ht'] at h
  rw [← hl, ← hl', (List.cons.inj h).1]

end StatementDerivation

theorem StatementDerivation.ne_cons {o : Bool} (d : StatementDerivation o) {s : Symbol} (t : Spelled s)
    (h : s.opensStatement = false) (rest after : List Token) : d.tokens ++ rest ≠ t.1 :: after := by
  obtain ⟨u, ts, hu, ho⟩ := d.exists_head
  rw [hu]
  intro heq
  have := ho s (by rw [(List.cons.inj heq).1, t.2])
  rw [h] at this
  cases this

theorem StatementDerivation.ne_variable {o : Bool} (d : StatementDerivation o)
    (v : VariableDerivation) (rest after : List Token) : d.tokens ++ rest ≠ v.tokens ++ after := by
  obtain ⟨_, hv, -⟩ := v.clean after
  rw [hv]
  exact d.ne_cons v.word rfl _ _

/-- A parenthesis, a condition and a parenthesis. -/
theorem condition_eq_before {left left' : Spelled .leftParen} {c c' : Derivation .expression}
    {right right' : Spelled .rightParen} {rest rest' : List Token}
    (h : left.1 :: (c.tokens ++ right.1 :: rest) = left'.1 :: (c'.tokens ++ right'.1 :: rest')) :
    left = left' ∧ c = c' ∧ right = right' ∧ rest = rest' := by
  obtain ⟨hl, h⟩ := List.cons.inj h
  exact ⟨Subtype.ext hl, Derivation.eq_before rfl (by decide) h⟩

mutual

/-- The same tokens in front are derived in one way as a statement, if it could not
take an `else` that follows. -/
theorem StatementDerivation.eq_before : ∀ {o o' : Bool} (d : StatementDerivation o)
    (d' : StatementDerivation o') {rest rest' : List Token}, (o = true → NoElse rest) →
    (o' = true → NoElse rest') → d.tokens ++ rest = d'.tokens ++ rest' →
    (⟨o, d⟩ : (o : Bool) × StatementDerivation o) = ⟨o', d'⟩ ∧ rest = rest'
  | _, _, .print word value semicolon, d', _, _, _, _, h => by
    have hl := StatementDerivation.lead_eq h
    cases d' with
    | print word' value' semicolon' =>
      simp only [StatementDerivation.tokens, List.cons_append, List.append_assoc, List.nil_append,
        List.cons.injEq] at h
      obtain ⟨hw, h⟩ := h
      obtain ⟨rfl, rfl, hr⟩ := Derivation.eq_before rfl (by decide) h
      obtain rfl := Subtype.ext hw
      exact ⟨rfl, hr⟩
    | _ => cases hl
  | _, _, .evaluate e semicolon, d', _, _, _, _, h => by
    have hl := StatementDerivation.lead_eq h
    cases d' with
    | evaluate e' semicolon' =>
      simp only [StatementDerivation.tokens, List.append_assoc, List.cons_append, List.nil_append] at h
      obtain ⟨rfl, rfl, hr⟩ := Derivation.eq_before rfl (by decide) h
      exact ⟨rfl, hr⟩
    | _ => cases hl
  | _, _, .block left body right, d', _, _, _, _, h => by
    have hl := StatementDerivation.lead_eq h
    cases d' with
    | block left' body' right' =>
      simp only [StatementDerivation.tokens, List.cons_append, List.append_assoc, List.nil_append,
        List.cons.injEq] at h
      obtain ⟨hw, h⟩ := h
      obtain ⟨rfl, rfl, hr⟩ := body.eq_before body' right right' h
      obtain rfl := Subtype.ext hw
      exact ⟨rfl, hr⟩
    | _ => cases hl
  | _, _, .ifThen word left condition right yes, d', _, _, ho, ho', h => by
    have hl := StatementDerivation.lead_eq h
    cases d' with
    | ifThen word' left' condition' right' yes' =>
      simp only [StatementDerivation.tokens, List.cons_append, List.append_assoc] at h
      obtain ⟨hw, h⟩ := List.cons.inj h
      obtain ⟨rfl, rfl, rfl, hk⟩ := condition_eq_before h
      obtain ⟨hy, hr⟩ := yes.eq_before yes' (fun _ => ho rfl) (fun _ => ho' rfl) hk
      obtain rfl := Subtype.ext hw
      cases hy
      exact ⟨rfl, hr⟩
    | ifElse word' left' condition' right' yes' elseWord' no' =>
      simp only [StatementDerivation.tokens, List.cons_append, List.append_assoc] at h
      obtain ⟨-, -, -, h⟩ := condition_eq_before (List.cons.inj h).2
      obtain ⟨-, hr⟩ := yes.eq_before yes' (fun _ => ho rfl) (fun h => by cases h) h
      exact absurd elseWord'.2 (ho rfl elseWord'.1 (by rw [hr]; rfl))
    | _ => cases hl
  | _, _, .ifElse word left condition right yes elseWord no, d', _, _, ho, ho', h => by
    have hl := StatementDerivation.lead_eq h
    cases d' with
    | ifThen word' left' condition' right' yes' =>
      simp only [StatementDerivation.tokens, List.cons_append, List.append_assoc] at h
      obtain ⟨-, -, -, h⟩ := condition_eq_before (List.cons.inj h).2
      obtain ⟨-, hr⟩ := yes.eq_before yes' (fun h => by cases h) (fun _ => ho' rfl) h
      exact absurd elseWord.2 (ho' rfl elseWord.1 (by rw [← hr]; rfl))
    | ifElse word' left' condition' right' yes' elseWord' no' =>
      simp only [StatementDerivation.tokens, List.cons_append, List.append_assoc] at h
      obtain ⟨hw, h⟩ := List.cons.inj h
      obtain ⟨rfl, rfl, rfl, hk⟩ := condition_eq_before h
      obtain ⟨hy, hk⟩ := yes.eq_before yes' (fun h => by cases h) (fun h => by cases h) hk
      obtain ⟨he, hk⟩ := List.cons.inj hk
      obtain ⟨hn, hr⟩ := no.eq_before no' ho ho' hk
      obtain rfl := Subtype.ext hw
      obtain rfl := Subtype.ext he
      cases hy
      cases hn
      exact ⟨rfl, hr⟩
    | _ => cases hl
  | _, _, .whileLoop word left condition right body, d', _, _, ho, ho', h => by
    have hl := StatementDerivation.lead_eq h
    cases d' with
    | whileLoop word' left' condition' right' body' =>
      simp only [StatementDerivation.tokens, List.cons_append, List.append_assoc] at h
      obtain ⟨hw, h⟩ := List.cons.inj h
      obtain ⟨rfl, rfl, rfl, hk⟩ := condition_eq_before h
      obtain ⟨hb, hr⟩ := body.eq_before body' ho ho' hk
      obtain rfl := Subtype.ext hw
      cases hb
      exact ⟨rfl, hr⟩
    | _ => cases hl
  | _, _, .forLoop word left start condition semicolon step right body, d', _, _, ho, ho', h => by
    have hl := StatementDerivation.lead_eq h
    cases d' with
    | forLoop word' left' start' condition' semicolon' step' right' body' =>
      simp only [StatementDerivation.tokens, List.cons_append, List.append_assoc] at h
      obtain ⟨hw, h⟩ := List.cons.inj h
      obtain ⟨hp, h⟩ := List.cons.inj h
      obtain ⟨rfl, hs⟩ := StartDerivation.eq_before h
      obtain ⟨rfl, rfl, hc⟩ := optional_eq_before semicolon semicolon' rfl (by decide) rfl hs
      obtain ⟨rfl, rfl, hk⟩ := optional_eq_before right right' rfl (by decide) rfl hc
      obtain ⟨hb, hr⟩ := body.eq_before body' ho ho' hk
      obtain rfl := Subtype.ext hw
      obtain rfl := Subtype.ext hp
      cases hb
      exact ⟨rfl, hr⟩
    | _ => cases hl

/-- The same tokens in front are derived in one way up to a brace that closes them. -/
theorem ProgramDerivation.eq_before : ∀ (d d' : ProgramDerivation) (right right' : Spelled .rightBrace)
    {rest rest' : List Token}, d.tokens ++ right.1 :: rest = d'.tokens ++ right'.1 :: rest' →
    d = d' ∧ right = right' ∧ rest = rest'
  | .nil, d', right, right', _, _, h => by
    cases d' with
    | nil => exact ⟨rfl, Subtype.ext (List.cons.inj h).1, (List.cons.inj h).2⟩
    | declare v later =>
      simp only [ProgramDerivation.tokens, List.append_assoc] at h
      exact (v.ne_cons right (by decide) _ _ h.symm).elim
    | statement s later =>
      simp only [ProgramDerivation.tokens, List.append_assoc] at h
      exact (s.ne_cons right rfl _ _ h.symm).elim
  | .declare v later, d', right, right', _, _, h => by
    simp only [ProgramDerivation.tokens, List.append_assoc] at h
    cases d' with
    | nil => exact (v.ne_cons right' (by decide) _ _ h).elim
    | declare v' later' =>
      simp only [ProgramDerivation.tokens, List.append_assoc] at h
      obtain ⟨rfl, hk⟩ := VariableDerivation.eq_before h
      obtain ⟨rfl, hr⟩ := later.eq_before later' right right' hk
      exact ⟨rfl, hr⟩
    | statement s later' =>
      simp only [ProgramDerivation.tokens, List.append_assoc] at h
      exact (s.ne_variable v _ _ h.symm).elim
  | .statement s later, d', right, right', _, _, h => by
    simp only [ProgramDerivation.tokens, List.append_assoc] at h
    cases d' with
    | nil => exact (s.ne_cons right' rfl _ _ h).elim
    | declare v later' =>
      simp only [ProgramDerivation.tokens, List.append_assoc] at h
      exact (s.ne_variable v _ _ h).elim
    | statement s' later' =>
      simp only [ProgramDerivation.tokens, List.append_assoc] at h
      have hne := noElse_of_spelled right (by decide)
      have hne' := noElse_of_spelled right' (by decide)
      obtain ⟨hs, h⟩ :=
        s.eq_before s' (fun _ => later.noElse (hne _)) (fun _ => later'.noElse (hne' _)) h
      obtain ⟨rfl, hr⟩ := later.eq_before later' right right' h
      cases hs
      exact ⟨rfl, hr⟩

end

/-- No two derivations derive the same tokens. -/
theorem ProgramDerivation.eq_of_tokens_eq {d d' : ProgramDerivation} (h : d.tokens = d'.tokens) :
    d = d' := by
  have right : Spelled .rightBrace := ⟨⟨.symbol .rightBrace, "", 0⟩, rfl⟩
  have h : d.tokens ++ [right.1] = d'.tokens ++ [right.1] := by rw [h]
  exact (d.eq_before d' right right h).1

/-! ### The tokens of a program -/

theorem takeWhile_not_isEnd {tokens : List Token} {last : Token} (hl : last.isEnd = true)
    (ht : ∀ t ∈ tokens, t.isEnd = false) (behind : List Token) :
    (tokens ++ last :: behind).takeWhile (!·.isEnd) = tokens := by
  rw [List.takeWhile_append_of_pos (fun t h => by rw [ht t h]; rfl), List.takeWhile_cons, hl]
  exact List.append_nil tokens

theorem parse_before_end {tokens : List Token} {last : Token} (hl : last.isEnd = true)
    (ht : ∀ t ∈ tokens, t.isEnd = false) :
    (parse (tokens ++ [last])).declarations = (Grammar.program tokens).1 ∧
      (parse (tokens ++ [last])).complaints = (Grammar.program tokens).2 := by
  rw [parse, takeWhile_not_isEnd hl ht []]
  exact ⟨rfl, rfl⟩

/-- **A program is accepted by its grammar.** There is no diagnostic exactly when the
tokens before the end have a derivation; then they have no other one, and
each declaration read is the tree of its part of it. -/
theorem parse_accepts_derivable (tokens : List Token) (last : Token) (hl : last.isEnd = true)
    (ht : ∀ t ∈ tokens, t.isEnd = false) :
    ((parse (tokens ++ [last])).diagnostics = [] ↔ ∃ d : ProgramDerivation, d.tokens = tokens) ∧
    ∀ d : ProgramDerivation, d.tokens = tokens →
      (parse (tokens ++ [last])).declarations = d.trees.map some ∧
      ∀ d' : ProgramDerivation, d'.tokens = tokens → d' = d := by
  obtain ⟨hd, hc⟩ := parse_before_end hl ht
  refine ⟨⟨fun h => ?_, ?_⟩, ?_⟩
  · rw [Parse.diagnostics, List.map_eq_nil_iff, hc] at h
    exact derived_program tokens h
  · rintro ⟨d, rfl⟩
    rw [Parse.diagnostics, hc, d.program]
    rfl
  · rintro d rfl
    refine ⟨by rw [hd, d.program], fun d' h => ProgramDerivation.eq_of_tokens_eq h⟩

/-- `if (a) if (b) c; else d;` -/
theorem parse_nearest_else :
    let a : Token := ⟨.identifier "a", "a", 1⟩
    let b : Token := ⟨.identifier "b", "b", 1⟩
    let c : Token := ⟨.identifier "c", "c", 1⟩
    let d : Token := ⟨.identifier "d", "d", 2⟩
    let word : Token := ⟨.symbol .ifWord, "if", 1⟩
    let left : Token := ⟨.symbol .leftParen, "(", 1⟩
    let right : Token := ⟨.symbol .rightParen, ")", 1⟩
    let semicolon : Token := ⟨.symbol .semicolon, ";", 1⟩
    let tokens := [word, left, a, right, word, left, b, right, c, semicolon,
      ⟨.symbol .elseWord, "else", 2⟩, d, semicolon]
    let last : Token := ⟨.endOfInput, "", 2⟩
    last.isEnd = true ∧ (∀ t ∈ tokens, t.isEnd = false) ∧
      (parse (tokens ++ [last])).diagnostics = [] ∧
      (parse (tokens ++ [last])).declarations =
        [some (.branch (.name a) (.branch (.name b) (.evaluate (.name c))
          (some (.evaluate (.name d)))) none)] := by
  intro a b c d word left right semicolon tokens last
  let e (t : NameToken) : Derivation .expression := .operation ((Derivation.name t).ofOperand precedence)
  let s (t : NameToken) : StatementDerivation false := .evaluate (e t) ⟨semicolon, rfl⟩
  let inner : StatementDerivation false := .ifElse ⟨word, rfl⟩ ⟨left, rfl⟩ (e ⟨b, "b", rfl⟩)
    ⟨right, rfl⟩ (s ⟨c, "c", rfl⟩) ⟨⟨.symbol .elseWord, "else", 2⟩, rfl⟩ (s ⟨d, "d", rfl⟩)
  let whole : ProgramDerivation := .statement (.ifThen ⟨word, rfl⟩ ⟨left, rfl⟩ (e ⟨a, "a", rfl⟩)
    ⟨right, rfl⟩ inner) .nil
  have hl : last.isEnd = true := rfl
  have ht : ∀ t ∈ tokens, t.isEnd = false := by decide
  have h := parse_accepts_derivable tokens last hl ht
  exact ⟨hl, ht, h.1.mpr ⟨whole, rfl⟩, (h.2 whole rfl).1⟩

end Lox
