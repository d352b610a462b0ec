/-
# Statements on one line

On a line that ends with its only semicolon, and has neither braces nor a
`for`, reading gets stuck before a token of the line or comes to the end of
it. Where no token but the first starts a statement, recovery goes on to the
end of the line. So a line that cannot be read as a statement is left out
with one complaint, and what stands behind it is read as if it stood alone.

Key definitions: `OneLine`.
Key theorems: `Grammar.leaves_statement`, `OneLine.recover_append`.
-/
import Lox.Proofs.Grammar.Endings

namespace Lox

/-! ### Lines -/

/-- Nothing that a line can have in front of its semicolon: what ends it, what stands around blocks
and the word the clauses of which have semicolons of their own. -/
def Kind.breaksLine : Kind → Bool
  | .symbol .semicolon | .symbol .leftBrace | .symbol .rightBrace | .symbol .forWord => true
  | _ => false

/-- Tokens up to a semicolon, of which only the first may start a statement. -/
inductive OneLine : List Token → Prop
  | semicolon {t : Token} (h : t.kind = .symbol .semicolon) : OneLine [t]
  | before {t u : Token} {rest : List Token} (ht : t.kind.breaksLine = false)
      (hu : u.kind.startsStatement = false) (h : OneLine (u :: rest)) : OneLine (t :: u :: rest)

theorem oneLine_append {semicolon : Token} (hs : semicolon.kind = .symbol .semicolon) :
    ∀ {front : List Token}, (∀ t ∈ front, t.kind.breaksLine = false) →
      (∀ t ∈ front.tail, t.kind.startsStatement = false) → OneLine (front ++ [semicolon])
  | [], _, _ => .semicolon hs
  | [t], hf, _ => .before (hf t List.mem_cons_self) (by rw [hs]; rfl) (.semicolon hs)
  | t :: u :: rest, hf, ht => by
    obtain ⟨hbreaks, hrest⟩ := List.forall_mem_cons.mp hf
    obtain ⟨hstarts, hlater⟩ := List.forall_mem_cons.mp ht
    exact .before hbreaks hstarts (oneLine_append hs hrest hlater)

namespace OneLine

/-- Before its semicolon a line goes on. -/
theorem later {t : Token} {rest : List Token} (h : OneLine (t :: rest))
    (ht : t.kind ≠ .symbol .semicolon) : OneLine rest := by
  cases h with
  | semicolon hs => exact absurd hs ht
  | before _ _ h => exact h

theorem exists_cons {line : List Token} (h : OneLine line) : ∃ t rest, line = t :: rest := by
  cases h with
  | @semicolon t _ => exact ⟨t, [], rfl⟩
  | @before t u rest _ _ _ => exact ⟨t, u :: rest, rfl⟩

theorem rest_eq_nil {t : Token} {rest : List Token} (h : OneLine (t :: rest))
    (ht : t.kind = .symbol .semicolon) : rest = [] := by
  cases h with
  | semicolon _ => rfl
  | before hb _ _ =>
    rw [ht] at hb
    cases hb

/-- The semicolon of a line is the end of it. -/
theorem passesOn : PassesOn OneLine (· = []) where
  token t rest ht h := h.later (by rintro hk; rw [hk] at ht; cases ht)
  semicolon _ _ ht h := h.rest_eq_nil ht

theorem breaksLine_eq_false {t : Token} {rest : List Token} (h : OneLine (t :: rest))
    (ht : t.kind ≠ .symbol .semicolon) : t.kind.breaksLine = false := by
  cases h with
  | semicolon hs => exact absurd hs ht
  | before hb _ _ => exact hb

theorem recoverAfter_append (more : List Token) : ∀ {t : Token} {rest : List Token},
    OneLine (t :: rest) → Grammar.recoverAfter t (rest ++ more) = more
  | t, [], h => by
    cases h with
    | semicolon hs =>
      cases more with
      | nil => rfl
      | cons u more =>
        rw [List.nil_append, Grammar.recoverAfter, hs]
        rfl
  | t, u :: rest, h => by
    cases h with
    | before hb hu hline =>
      have hs : t.kind ≠ .symbol .semicolon := by
        intro hk
        rw [hk] at hb
        cases hb
      rw [List.cons_append, Grammar.recoverAfter, if_neg (by simp [hs, hu])]
      exact recoverAfter_append more hline

/-- Recovery on a line goes to the end of the line. -/
theorem recover_append {line : List Token} (h : OneLine line) (more : List Token) :
    Grammar.recover (line ++ more) = more := by
  obtain ⟨t, rest, rfl⟩ := h.exists_cons
  exact recoverAfter_append more h

end OneLine

namespace Grammar

mutual

/-- A statement on a line comes to the end of it or gets stuck on it. -/
theorem leaves_statement (input : List Token) (h : OneLine input) :
    (statement input).Leaves (· = []) OneLine := by
  cases input with
  | nil => cases h
  | cons t after =>
    rw [statement]
    split
    · rename_i ht
      exact Reading.leaves_within _ (leaves_ifStatement after (h.later (by rw [ht]; decide)))
    · rename_i ht
      exact Reading.leaves_within _ (leaves_printStatement OneLine.passesOn (h.later (by rw [ht]; decide)))
    · rename_i ht
      have hb := h.breaksLine_eq_false (by rw [ht]; decide)
      rw [ht] at hb
      cases hb
    · rename_i ht
      exact Reading.leaves_within _ (leaves_whileStatement after (h.later (by rw [ht]; decide)))
    · rename_i ht
      have hb := h.breaksLine_eq_false (by rw [ht]; decide)
      rw [ht] at hb
      cases hb
    · exact leaves_expressionStatement OneLine.passesOn h
termination_by (input.length, 0)

theorem leaves_ifStatement (input : List Token) (h : OneLine input) :
    (ifStatement input).Leaves (· = []) OneLine := by
  rw [ifStatement]
  apply Reading.leaves_andThen (leaves_expect OneLine.passesOn.token rfl rfl h)
  intro rest h1 _ hrest
  apply Reading.leaves_andThen (leaves_expression OneLine.passesOn.token rest hrest)
  intro rest h2 condition hrest
  apply Reading.leaves_andThen (leaves_expect OneLine.passesOn.token rfl rfl hrest)
  intro rest h3 _ hrest
  apply Reading.leaves_andPerhaps (leaves_statement rest hrest)
  -- the statement has used the line up, and no `else` is left on it
  rintro rest h4 yes rfl
  exact ⟨onlyTargets_nil, rfl⟩
termination_by (input.length, 0)

theorem leaves_whileStatement (input : List Token) (h : OneLine input) :
    (whileStatement input).Leaves (· = []) OneLine := by
  rw [whileStatement]
  apply Reading.leaves_andThen (leaves_expect OneLine.passesOn.token rfl rfl h)
  intro rest h1 _ hrest
  apply Reading.leaves_andThen (leaves_expression OneLine.passesOn.token rest hrest)
  intro rest h2 condition hrest
  apply Reading.leaves_andThen (leaves_expect OneLine.passesOn.token rfl rfl hrest)
  intro rest h3 _ hrest
  exact Reading.leaves_map _ (leaves_statement rest hrest)
termination_by (input.length, 0)

end

end Grammar
end Lox
