/-
# Expressions are read by their grammar

A derivation of an expression is read as its tree when what follows cannot go
on with it.

Key definitions: `Derivation.Reads`.
Key theorems: `Derivation.reads`.
-/
import Lox.Proofs.Grammar.Phrases

namespace Lox

open Grammar (Stops)

theorem precedence_nodup : precedence.Nodup := by decide

namespace Derivation

theorem node_eq_join (level : Level) (l : Expression) (t : Token) (r : Expression) :
    node level l t r = level.join l t r := by
  cases level <;> rfl

theorem stops_of_owns {level : Level} {levels : List Level} (hn : (level :: levels).Nodup) {t : Token}
    (h : level.owns t = true) (after : List Token) : Stops levels (t :: after) := by
  intro u hu other ho
  cases hu
  cases hc : other.owns t with
  | false => rfl
  | true => exact absurd (Level.eq_of_owns h hc ▸ ho) (List.nodup_cons.mp hn).1

/-- That the tokens of a derivation are read as its tree when those after them
do not go on with it. Of an operation on `level :: levels` it says more, since
it may be the left operand of another one: it is read before anything that
does not go on with the operations on `levels`, and the operations on `level`
after it are joined to it. -/
def Reads : {c : Category} → Derivation c → Prop
  | .expression, d => ∀ rest, Stops precedence rest → (∀ t ∈ rest.head?, t.kind ≠ .symbol .equal) →
    (Grammar.expression (d.tokens ++ rest)).Clean d.tree rest
  | .operation [], d => ∀ rest, (Grammar.operation [] (d.tokens ++ rest)).Clean d.tree rest
  | .operation (level :: levels), d => (level :: levels).Nodup → ∀ rest, Stops levels rest →
    ∀ (e : Expression) (after : List Token),
    (∀ {bound : Nat} (h : rest.length < bound),
      (Grammar.operations level levels d.tree rest h).Clean e after) →
    (Grammar.operation (level :: levels) (d.tokens ++ rest)).Clean e after
  | .operand, d => ∀ rest, (Grammar.operand (d.tokens ++ rest)).Clean d.tree rest

theorem clean_operations_of_stops {level : Level} {levels : List Level} {rest : List Token}
    (h : Stops (level :: levels) rest) (left : Expression) {bound : Nat} (hb : rest.length < bound) :
    (Grammar.operations level levels left rest hb).Clean left rest := by
  cases rest with
  | nil => exact (Grammar.clean_operations_nil ..).mpr ⟨rfl, rfl⟩
  | cons t after =>
    have ht : level.owns t = false := h t rfl level List.mem_cons_self
    exact (Grammar.clean_operations_cons ..).mpr (.inl ⟨ht, rfl, rfl⟩)

/-- Where an operation cannot go on, it is read as it is. -/
theorem Reads.operation {levels : List Level} {d : Derivation (.operation levels)} (h : Reads d)
    (hn : levels.Nodup) {rest : List Token} (hs : Stops levels rest) :
    (Grammar.operation levels (d.tokens ++ rest)).Clean d.tree rest := by
  cases levels with
  | nil => exact h rest
  | cons level levels =>
    refine h hn rest (fun t ht other ho => hs t ht other (List.mem_cons_of_mem _ ho)) d.tree rest ?_
    exact fun hb => clean_operations_of_stops hs d.tree hb

theorem reads_name (t : NameToken) : Reads (name t) := fun _ =>
  (Grammar.clean_operand_cons ..).mpr (.inr (.inl ⟨t.2, rfl, rfl⟩))

theorem Reads.operand {o : Derivation .operand} (h : Reads o) : Reads (operand o) := fun rest =>
  (Grammar.clean_operation_nil ..).mpr (h rest)

theorem Reads.tighter {level : Level} {levels : List Level} {o : Derivation (.operation levels)}
    (h : Reads o) : Reads (@tighter level levels o) := by
  intro hn rest hs e after he
  exact (Grammar.clean_operation_cons ..).mpr
    ⟨o.tree, rest, h.operation (List.nodup_cons.mp hn).2 hs, he _⟩

/-- An operand is an operation on any levels. -/
def ofOperand (o : Derivation .operand) : (levels : List Level) → Derivation (.operation levels)
  | [] => .operand o
  | _ :: levels => .tighter (o.ofOperand levels)

theorem tokens_ofOperand (o : Derivation .operand) : ∀ levels, (o.ofOperand levels).tokens = o.tokens
  | [] => rfl
  | _ :: levels => o.tokens_ofOperand levels

theorem tree_ofOperand (o : Derivation .operand) : ∀ levels, (o.ofOperand levels).tree = o.tree
  | [] => rfl
  | _ :: levels => o.tree_ofOperand levels

theorem Reads.ofOperand {o : Derivation .operand} (h : Reads o) : ∀ levels, Reads (o.ofOperand levels)
  | [] => h.operand
  | _ :: levels => (h.ofOperand levels).tighter

theorem owns_eq_false {t : Token} {s : Symbol} (h : t.kind = .symbol s) (hs : s.level? = none)
    (level : Level) : level.owns t = false := by
  rw [Bool.eq_false_iff]
  intro ho
  obtain ⟨s', hk, hl⟩ := (level.owns_iff t).mp ho
  rw [h] at hk
  cases hk
  rw [hs] at hl
  cases hl

theorem stops_of_level {t : Token} {s : Symbol} (h : t.kind = .symbol s) (hs : s.level? = none)
    (levels : List Level) (after : List Token) : Stops levels (t :: after) := by
  intro u hu level _
  cases hu
  exact owns_eq_false h hs level

theorem reads {c : Category} (d : Derivation c) : Reads d := by
  induction d with
  | literal t value h =>
    intro rest
    exact (Grammar.clean_operand_cons ..).mpr (.inr (.inr (.inr ⟨value, h, rfl, rfl⟩)))
  | name t => exact reads_name t
  | group left inner right ih =>
    intro rest
    refine (Grammar.clean_operand_cons ..).mpr
      (.inr (.inr (.inl ⟨left.2, inner.tree, right.1, ?_, right.2, rfl⟩)))
    change (Grammar.expression ((inner.tokens ++ [right.1]) ++ rest)).Clean _ _
    rw [List.append_assoc]
    exact ih (right.1 :: rest) (stops_of_level right.2 rfl _ _) fun t ht => by cases ht; simp [right.2]
  | unary sign inner ih =>
    intro rest
    exact (Grammar.clean_operand_cons ..).mpr
      (.inl ⟨sign.1.isSign_iff.mpr sign.2, inner.tree, ih rest, rfl⟩)
  | operand o ih => exact ih.operand
  | tighter o ih => exact ih.tighter
  | @join level levels left operator right ihl ihr =>
    intro hn rest hs e after h
    have hop : level.owns operator.1 = true := (level.owns_iff _).mpr operator.2
    rw [tokens, List.append_assoc]
    refine ihl hn _ (stops_of_owns hn hop _) e after fun hb => ?_
    refine (Grammar.clean_operations_cons ..).mpr (.inr ⟨hop, right.tree, rest, ?_, ?_⟩)
    · exact ihr.operation (List.nodup_cons.mp hn).2 hs
    · rw [← node_eq_join]
      exact h _
  | operation o ih =>
    intro rest hs he
    exact (Grammar.clean_expression ..).mpr (.inl ⟨ih.operation precedence_nodup hs, he⟩)
  | assign target equals value ih =>
    intro rest hs he
    have hname := ((reads_name target).ofOperand precedence).operation precedence_nodup
      (stops_of_level equals.2 rfl precedence (value.tokens ++ rest))
    rw [tokens_ofOperand, tree_ofOperand] at hname
    exact (Grammar.clean_expression ..).mpr (.inr
      ⟨target.1, equals.1, value.tokens ++ rest, value.tree, hname, equals.2, ih rest hs he, rfl⟩)

end Derivation

/-- A derivation of a name has no other token. -/
theorem tokens_of_tree_name {c : Category} {t : Token} (d : Derivation c) (h : d.tree = .name t) :
    d.tokens = [t] ∧ ∃ name, t.kind = .identifier name := by
  induction d with
  | literal | group | unary | assign => cases h
  | name u =>
    cases h
    exact ⟨rfl, u.2⟩
  | operand o ih | tighter o ih | operation o ih => exact ih h
  | @join level _ l op r =>
    cases level <;> cases h

end Lox
