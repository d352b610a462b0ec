/-
# Cursors

Tokens can be read with a cursor. It looks at the token it stands at and passes
it, unless that token ends the input; so however often it advances, it stays
at the first token that ends the input, and sees none behind. What a cursor has
ahead of it is then a list of tokens, empty at the end of the input, and to
advance is to drop the first of them. The readings take such lists: a program
is read from what a cursor at the start has ahead, a declaration leaves what it
has ahead some tokens further on, and recovery is a loop that advances.

Key definitions: `Cursor`, `Cursor.advance`, `Cursor.remaining`, `Cursor.synchronize`.
Key theorems: `Cursor.advance_iterate`, `Cursor.peek_iterate`, `Cursor.remaining_iterate`,
`Cursor.remaining_synchronize`, `Cursor.exists_iterate_declaration`, `parse_with_cursor`.
-/
import Lox.Proofs.Recovery.Attempts
import Lox.Proofs.Recovery.Boundaries

namespace Lox

/-- A place in a list of tokens, which is read from there on. -/
structure Cursor where
  tokens : List Token
  place : Nat := 0

namespace Cursor

/-- The token the cursor stands at. -/
def peek (c : Cursor) : Option Token := c.tokens[c.place]?

/-- The token in front of it. -/
def previous (c : Cursor) : Option Token := c.tokens[c.place - 1]?

/-- Whether the token it stands at ends the input; so does the end of the list. -/
def atEnd (c : Cursor) : Bool := c.peek.all Token.isEnd

/-- Passes a token, unless that ends the input. -/
def advance (c : Cursor) : Cursor :=
  if c.atEnd then c else { c with place := c.place + 1 }

theorem lt_length_of_atEnd {c : Cursor} (h : c.atEnd = false) : c.place < c.tokens.length := by
  by_contra hle
  rw [atEnd, peek, List.getElem?_eq_none (Nat.le_of_not_lt hle)] at h
  cases h

/-- Advances to where a statement may start: behind a semicolon, or before a word that starts
one. -/
def skip (c : Cursor) : Cursor :=
  if _h : c.atEnd then c
  else if c.previous.any (·.kind = .symbol .semicolon) || c.peek.any (·.kind.startsStatement) then c
  else c.advance.skip
termination_by c.tokens.length - c.place
decreasing_by
  have hlt := lt_length_of_atEnd (Bool.eq_false_iff.mpr _h)
  simp only [advance, _h, Bool.false_eq_true, if_false]
  omega

/-- Passes a token, if there is one, and then skips. -/
def synchronize (c : Cursor) : Cursor := c.advance.skip

/-- The tokens ahead of the cursor. -/
def remaining (c : Cursor) : List Token := ahead c.tokens c.place

/-- The cursor is not behind the end of the input. -/
def Inside (c : Cursor) : Prop := c.place ≤ endPlace c.tokens

theorem inside_start (tokens : List Token) : Inside { tokens } := Nat.zero_le _

section Steps

variable {c : Cursor}

/-- Before the end there is a token to pass, and it is the first one ahead. -/
theorem exists_peek (h : c.place < endPlace c.tokens) : ∃ t, c.peek = some t ∧ t.isEnd = false ∧
    c.remaining = t :: remaining { c with place := c.place + 1 } := by
  have hlt : c.place < c.tokens.length := Nat.lt_of_lt_of_le h List.findIdx_le_length
  have ht : c.tokens[c.place].isEnd = false := List.not_of_lt_findIdx h
  refine ⟨_, List.getElem?_eq_getElem hlt, ht, ?_⟩
  rw [remaining, ahead, List.drop_eq_getElem_cons hlt, List.takeWhile_cons_of_pos (by rw [ht]; rfl)]
  rfl

theorem atEnd_iff (h : c.Inside) : c.atEnd = true ↔ c.place = endPlace c.tokens := by
  constructor
  · intro he
    by_contra hne
    obtain ⟨t, hp, ht, -⟩ := exists_peek (Nat.lt_of_le_of_ne h hne)
    rw [atEnd, hp, Option.all_some, ht] at he
    cases he
  · intro he
    rw [atEnd, peek, he]
    rcases Nat.lt_or_ge (endPlace c.tokens) c.tokens.length with hlt | hge
    · rw [List.getElem?_eq_getElem hlt, Option.all_some]
      exact List.findIdx_getElem (w := hlt)
    · rw [List.getElem?_eq_none hge]
      rfl

/-- The end of the input is never passed. -/
theorem advance_eq (h : c.Inside) :
    c.advance = { c with place := min (c.place + 1) (endPlace c.tokens) } := by
  have hle : c.place ≤ endPlace c.tokens := h
  rw [advance]
  split
  · rename_i he
    have hplace := (atEnd_iff h).mp he
    have hmin : min (c.place + 1) (endPlace c.tokens) = c.place := by omega
    rw [hmin]
  · rename_i he
    have hplace : c.place ≠ endPlace c.tokens := fun heq => he ((atEnd_iff h).mpr heq)
    have hmin : min (c.place + 1) (endPlace c.tokens) = c.place + 1 := by omega
    rw [hmin]

/-- However often it advances, a cursor stays at the first token that ends the input. -/
theorem advance_iterate (h : c.Inside) (n : Nat) :
    advance^[n] c = { c with place := min (c.place + n) (endPlace c.tokens) } := by
  induction n with
  | zero =>
    have hmin : min (c.place + 0) (endPlace c.tokens) = c.place := Nat.min_eq_left h
    rw [Function.iterate_zero, id, hmin]
  | succ n ih =>
    have hinside : Inside { c with place := min (c.place + n) (endPlace c.tokens) } :=
      Nat.min_le_right _ _
    have hmin : min (min (c.place + n) (endPlace c.tokens) + 1) (endPlace c.tokens) =
        min (c.place + (n + 1)) (endPlace c.tokens) := by omega
    rw [Function.iterate_succ_apply', ih, advance_eq hinside, hmin]

theorem Inside.iterate (h : c.Inside) (n : Nat) : (Cursor.advance^[n] c).Inside := by
  rw [advance_iterate h]
  exact Nat.min_le_right _ _

theorem Inside.advance (h : c.Inside) : c.advance.Inside := h.iterate 1

end Steps

/-- The end of the input is where the first token that ends it stands. -/
theorem endPlace_append : ∀ {front : List Token} {stop : Token}, (∀ t ∈ front, t.isEnd = false) →
    stop.isEnd = true → ∀ behind, endPlace (front ++ stop :: behind) = front.length
  | [], _, _, hstop, behind => endPlace_cons_of_isEnd hstop behind
  | _ :: _, _, hfront, hstop, behind => by
    obtain ⟨ht, hrest⟩ := List.forall_mem_cons.mp hfront
    rw [List.cons_append, endPlace_cons ht, endPlace_append hrest hstop, List.length_cons]

/-- What stands behind the first token that ends the input is never seen. -/
theorem peek_iterate {front : List Token} {stop : Token} (hfront : ∀ t ∈ front, t.isEnd = false)
    (hstop : stop.isEnd = true) (behind : List Token) (n : Nat) :
    (advance^[n] { tokens := front ++ stop :: behind }).peek =
      (front ++ [stop])[min n front.length]? := by
  have hlt : min n front.length < (front ++ [stop]).length := by
    rw [List.length_append, List.length_singleton]
    omega
  rw [advance_iterate (inside_start _), endPlace_append hfront hstop, Nat.zero_add, peek,
    List.append_cons, List.getElem?_append_left hlt]

/-! ### Tokens ahead -/

section Remaining

variable {c : Cursor}

theorem remaining_of_atEnd (h : c.Inside) (he : c.atEnd = true) : c.remaining = [] := by
  rw [remaining, (atEnd_iff h).mp he, ahead_endPlace]

/-- Before the end, to advance is to drop the token the cursor stands at. -/
theorem remaining_of_not_atEnd (h : c.Inside) (he : c.atEnd = false) :
    ∃ t, c.peek = some t ∧ t.isEnd = false ∧ c.remaining = t :: c.advance.remaining := by
  have hne : c.place ≠ endPlace c.tokens := by
    rw [Ne, ← atEnd_iff h, he]
    decide
  obtain ⟨t, hp, ht, hr⟩ := exists_peek (Nat.lt_of_le_of_ne h hne)
  refine ⟨t, hp, ht, ?_⟩
  rw [hr, advance, if_neg (Bool.eq_false_iff.mp he)]

/-- To advance is to drop a token, if there is one. -/
theorem remaining_advance (h : c.Inside) : c.advance.remaining = c.remaining.tail := by
  cases he : c.atEnd with
  | true => rw [advance, if_pos he, remaining_of_atEnd h he, List.tail_nil]
  | false =>
    obtain ⟨t, -, -, hr⟩ := remaining_of_not_atEnd h he
    rw [hr, List.tail_cons]

theorem remaining_iterate (h : c.Inside) (n : Nat) :
    (advance^[n] c).remaining = c.remaining.drop n := by
  induction n with
  | zero => rfl
  | succ n ih =>
    rw [Function.iterate_succ_apply', remaining_advance (h.iterate n), ih, List.tail_drop]

/-- What skipping leaves depends on the token in front of the cursor and on those ahead. -/
theorem remaining_skip (h : c.Inside) {previous : Token} (hp : c.previous = some previous) :
    c.skip.remaining = Grammar.recoverAfter previous c.remaining := by
  fun_induction skip c generalizing previous with
  | case1 c he =>
    rw [remaining_of_atEnd h he]
    rfl
  | case2 c he hstop =>
    obtain ⟨t, ht, -, hr⟩ := remaining_of_not_atEnd h (Bool.eq_false_iff.mpr he)
    rw [hp, ht, Option.any_some, Option.any_some] at hstop
    rw [hr, Grammar.recoverAfter, if_pos hstop]
  | case3 c he hgoes ih =>
    obtain ⟨t, ht, -, hr⟩ := remaining_of_not_atEnd h (Bool.eq_false_iff.mpr he)
    rw [hp, ht, Option.any_some, Option.any_some] at hgoes
    have hnext : c.advance.previous = some t := by
      rw [advance, if_neg he]
      exact ht
    rw [hr, Grammar.recoverAfter, if_neg hgoes, ih h.advance hnext]

/-- Recovery leaves what is ahead of the cursor when its loop is done. -/
theorem remaining_synchronize (h : c.Inside) :
    c.synchronize.remaining = Grammar.recover c.remaining := by
  cases he : c.atEnd with
  | true =>
    have hstays : c.synchronize = c := by
      rw [synchronize, advance, if_pos he, skip, dif_pos he]
    rw [hstays, remaining_of_atEnd h he]
    rfl
  | false =>
    obtain ⟨t, ht, -, hr⟩ := remaining_of_not_atEnd h he
    have hnext : c.advance.previous = some t := by
      rw [advance, if_neg (Bool.eq_false_iff.mp he)]
      exact ht
    rw [hr]
    exact remaining_skip h.advance hnext

/-- A declaration leaves what is ahead of the cursor when it has advanced some more. -/
theorem exists_iterate_declaration (h : c.Inside) {t : Token} {after : List Token}
    (hr : c.remaining = t :: after) :
    ∃ n, 0 < n ∧ (Grammar.declaration t after).rest = (advance^[n] c).remaining := by
  have hshorter := (Grammar.declaration t after).shorter
  obtain ⟨front, hfront⟩ := (Grammar.account_declaration t after).forward
  have hlength := congrArg List.length hfront
  rw [List.length_append, List.length_cons] at hlength
  refine ⟨front.length, by omega, ?_⟩
  rw [remaining_iterate h, hr, ← hfront, List.drop_left]

end Remaining
end Cursor

/-- **A program is read with a cursor.** It is read from what a cursor at the start has ahead.
Wherever the cursor has come to by advancing, that is not behind the first token that ends the
input; there is nothing ahead if it stands at the end, and otherwise the token it stands at and
what is ahead when it has passed that; a declaration leaves what is ahead further on, and recovery
what is ahead when its loop is done. -/
theorem parse_with_cursor (tokens : List Token) :
    (parse tokens).declarations = (Grammar.program (Cursor.remaining { tokens })).1 ∧
    (parse tokens).complaints = (Grammar.program (Cursor.remaining { tokens })).2 ∧
    ∀ n, ∃ c : Cursor, c = Cursor.advance^[n] { tokens } ∧ c.tokens = tokens ∧
      c.place = min n (endPlace tokens) ∧
      (c.atEnd = true → c.remaining = []) ∧
      (c.atEnd = false → ∃ t, c.peek = some t ∧ c.remaining = t :: c.advance.remaining ∧
        ∃ k, 0 < k ∧ (Grammar.declaration t c.advance.remaining).rest =
          (Cursor.advance^[k] c).remaining) ∧
      c.synchronize.remaining = Grammar.recover c.remaining := by
  refine ⟨rfl, rfl, fun n => ?_⟩
  have hc := (Cursor.inside_start tokens).iterate n
  have hplace := Cursor.advance_iterate (Cursor.inside_start tokens) n
  refine ⟨_, rfl, ?_, ?_, Cursor.remaining_of_atEnd hc, fun he => ?_,
    Cursor.remaining_synchronize hc⟩
  · rw [hplace]
  · rw [hplace, Nat.zero_add]
  · obtain ⟨t, hp, -, hr⟩ := Cursor.remaining_of_not_atEnd hc he
    exact ⟨t, hp, hr, Cursor.exists_iterate_declaration hc hr⟩

end Lox
