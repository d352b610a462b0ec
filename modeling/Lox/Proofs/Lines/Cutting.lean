/-
# Cutting a source at a newline

A blank ends every piece but strings and comments, and a newline ends comments
as well. So the pieces of a source with a newline in it are those before, the
newline and those after, unless a string without an end was before; and the
tokens after it are those of the rest of the source, on their lines.

Key definitions: `Piece.Ended`, `Scan.body`, `Piece.lastLine`.
Key theorems: `Piece.first_append_blank`, `Piece.cut_append_newline`,
`Scan.tokens_ofPieces`, `Scan.body_moved`.
-/
import Lox.Piece
import Lox.Proofs.Lines.Moved

namespace Lox

section Before

variable {α : Type} {p : α → Bool} {x : α}

theorem takeWhile_before (hx : p x = false) (more : List α) : ∀ l : List α,
    (l ++ x :: more).takeWhile p = l.takeWhile p
  | [] => by rw [List.nil_append, List.takeWhile_cons, hx]; rfl
  | y :: l => by
    rw [List.cons_append, List.takeWhile_cons, List.takeWhile_cons, takeWhile_before hx more l]

theorem dropWhile_before (hx : p x = false) (more : List α) : ∀ l : List α,
    (l ++ x :: more).dropWhile p = l.dropWhile p ++ x :: more
  | [] => by rw [List.nil_append, List.dropWhile_cons, hx]; rfl
  | y :: l => by
    rw [List.cons_append, List.dropWhile_cons, List.dropWhile_cons, dropWhile_before hx more l]
    split <;> rfl

/-- What stops a prefix still stops it in a longer list. -/
theorem takeWhile_append_of_dropWhile {y : α} {l after : List α} (h : l.dropWhile p = y :: after)
    (more : List α) :
    (l ++ more).takeWhile p = l.takeWhile p ∧ (l ++ more).dropWhile p = y :: after ++ more := by
  have hl := congrArg List.length (List.takeWhile_append_dropWhile (p := p) (l := l))
  rw [List.length_append, h, List.length_cons] at hl
  have hne : ¬ (l.takeWhile p).length = l.length := by omega
  have hdrop : ¬ (l.dropWhile p).isEmpty = true := by simp [h]
  rw [List.takeWhile_append, if_neg hne, List.dropWhile_append, if_neg hdrop, h]
  exact ⟨rfl, rfl⟩

end Before

namespace Piece

/-! ### One piece -/

variable (c : Char) (rest more : List Char)

theorem string_append (h : (string rest).1.role ≠ .unterminated) :
    string (rest ++ more) = ((string rest).1, (string rest).2 ++ more) := by
  unfold string at h ⊢
  rcases hd : rest.dropWhile (· ≠ quote) with _ | ⟨d, after⟩
  · rw [hd] at h
    exact (h rfl).elim
  · obtain ⟨htake, hdrop⟩ := takeWhile_append_of_dropWhile hd more
    rw [hdrop, htake]
    rfl

section Behind

variable {b : Char}

theorem number_append (hd : b.isDigit = false) (hp : b ≠ '.') :
    number c (rest ++ b :: more) = ((number c rest).1, (number c rest).2 ++ b :: more) := by
  unfold number
  rw [takeWhile_before hd, dropWhile_before hd]
  rcases rest.dropWhile Char.isDigit with _ | ⟨d, after⟩
  · simp [hp]
  · by_cases hpoint : d = '.'
    · subst hpoint
      rw [List.cons_append]
      simp only [takeWhile_before hd, dropWhile_before hd]
      cases after.takeWhile Char.isDigit with
      | nil => rfl
      | cons e part => rfl
    · simp [hpoint]

theorem word_append (hw : continuesWord b = false) :
    word c (rest ++ b :: more) = ((word c rest).1, (word c rest).2 ++ b :: more) := by
  unfold word
  rw [takeWhile_before hw, dropWhile_before hw]

theorem operator_append (he : b ≠ '=') (s : Symbol) :
    operator s c (rest ++ b :: more) = ((operator s c rest).1, (operator s c rest).2 ++ b :: more) := by
  unfold operator
  cases s.withEqual? with
  | none => rfl
  | some joined =>
    cases rest with
    | nil => simp [he]
    | cons d after =>
      by_cases hd : d = '='
      · subst hd
        rfl
      · simp [hd]

/-- A comment ends at a newline only. -/
theorem slash_append (hs : b ≠ '/') (h : (slash rest).1.role ≠ .comment ∨ b = '\n') :
    slash (rest ++ b :: more) = ((slash rest).1, (slash rest).2 ++ b :: more) := by
  cases rest with
  | nil => simp [slash, hs]
  | cons d after =>
    by_cases hd : d = '/'
    · subst hd
      rcases h with h | rfl
      · exact absurd rfl h
      · have htake : (after ++ '\n' :: more).takeWhile (· ≠ '\n') = after.takeWhile (· ≠ '\n') :=
          takeWhile_before (by decide) more after
        have hdrop : (after ++ '\n' :: more).dropWhile (· ≠ '\n') =
            after.dropWhile (· ≠ '\n') ++ '\n' :: more := dropWhile_before (by decide) more after
        rw [List.cons_append]
        simp only [slash, htake, hdrop]
    · simp [slash, hd]

/-- What separates pieces belongs to none but a string or a comment. -/
theorem apart_of_isBlank (h : isBlank b = true) :
    b.isDigit = false ∧ continuesWord b = false ∧ b ≠ '.' ∧ b ≠ '=' ∧ b ≠ '/' := by
  have hb : ((b = ' ' ∨ b = '\r') ∨ b = '\t') ∨ b = '\n' := by simpa [isBlank] using h
  rcases hb with ((rfl | rfl) | rfl) | rfl <;> decide

/-- A blank after a piece does not make it longer, and is left. -/
theorem first_append_blank (hb : isBlank b = true) (h : (first c rest).1.role ≠ .unterminated)
    (hc : (first c rest).1.role ≠ .comment ∨ b = '\n') :
    first c (rest ++ b :: more) = ((first c rest).1, (first c rest).2 ++ b :: more) := by
  obtain ⟨hdigit, hword, hpoint, hequal, hslash⟩ := apart_of_isBlank hb
  unfold first at h hc ⊢
  by_cases hq : c = quote
  · rw [if_pos hq] at h
    rw [if_pos hq, if_pos hq]
    exact string_append rest _ h
  rw [if_neg hq] at hc
  rw [if_neg hq, if_neg hq]
  by_cases hd : c.isDigit = true
  · rw [if_pos hd, if_pos hd]
    exact number_append c rest more hdigit hpoint
  rw [if_neg hd] at hc
  rw [if_neg hd, if_neg hd]
  by_cases hw : startsWord c = true
  · rw [if_pos hw, if_pos hw]
    exact word_append c rest more hword
  rw [if_neg hw] at hc
  rw [if_neg hw, if_neg hw]
  by_cases hblank : isBlank c = true
  · rw [if_pos hblank, if_pos hblank]
  rw [if_neg hblank] at hc
  rw [if_neg hblank, if_neg hblank]
  by_cases hs : c = '/'
  · rw [if_pos hs] at hc
    rw [if_pos hs, if_pos hs]
    exact slash_append rest more hslash hc
  rw [if_neg hs, if_neg hs]
  cases Symbol.ofChar? c with
  | none => rfl
  | some s => exact operator_append c rest more hequal s

/-- A newline ends a comment as well. -/
theorem first_append_newline (h : (first c rest).1.role ≠ .unterminated) :
    first c (rest ++ '\n' :: more) = ((first c rest).1, (first c rest).2 ++ '\n' :: more) :=
  first_append_blank c rest more rfl h (.inr rfl)

end Behind

/-- What can be said of the role of the first piece of `c :: rest`: no token ends the
input, and only a string that nothing ends has no end. -/
def Role.Fits (c : Char) (rest : List Char) : Role → Prop
  | .token kind => kind ≠ .endOfInput
  | .unterminated => c = quote ∧ rest.dropWhile (· ≠ quote) = []
  | .blank | .comment | .unexpected => True

theorem string_fits : (string rest).1.role.Fits quote rest := by
  unfold string
  split
  · rename_i h
    exact ⟨rfl, h⟩
  · exact fun h => by cases h

theorem number_fits : (number c rest).1.role.Fits c rest := by
  unfold number
  split
  · split
    · exact fun h => by cases h
    · exact fun h => by cases h
  · exact fun h => by cases h

theorem word_fits : (word c rest).1.role.Fits c rest := by
  show Kind.ofWord _ ≠ .endOfInput
  unfold Kind.ofWord
  split
  · exact fun h => by cases h
  · exact fun h => by cases h

theorem operator_fits (s : Symbol) : (operator s c rest).1.role.Fits c rest := by
  unfold operator
  split
  · exact fun h => by cases h
  · exact fun h => by cases h

theorem slash_fits : (slash rest).1.role.Fits '/' rest := by
  unfold slash
  split
  · trivial
  · exact fun h => by cases h

theorem first_fits : (first c rest).1.role.Fits c rest := by
  unfold first
  split
  · rename_i hc
    subst hc
    exact string_fits rest
  split
  · exact number_fits c rest
  split
  · exact word_fits c rest
  split
  · trivial
  split
  · rename_i hc
    subst hc
    exact slash_fits rest
  · split
    · exact operator_fits c rest _
    · trivial

/-! ### All the pieces -/

variable {c rest more}

/-- No string is without an end. -/
def Ended (source : List Char) : Prop := ∀ p ∈ cut source, p.role ≠ .unterminated

theorem cut_nil : cut [] = [] := by
  rw [cut]

theorem cut_newline (more : List Char) : cut ('\n' :: more) = ⟨['\n'], .blank⟩ :: cut more := by
  rw [cut]
  rfl

theorem cut_cons (c : Char) (rest : List Char) :
    cut (c :: rest) = (first c rest).1 :: cut (first c rest).2 := by
  rw [cut]

/-- The pieces before a newline and those after it are cut on their own. -/
theorem cut_append_newline (more : List Char) {source : List Char} (h : Ended source) :
    cut (source ++ '\n' :: more) = cut source ++ ⟨['\n'], .blank⟩ :: cut more := by
  induction hk : source.length using Nat.strongRecOn generalizing source with
  | _ k ih =>
    subst hk
    cases source with
    | nil =>
      rw [List.nil_append, cut_newline, cut_nil]
      rfl
    | cons c rest =>
      have hp : ∀ p ∈ (first c rest).1 :: cut (first c rest).2, p.role ≠ .unterminated := by
        rw [← cut_cons]
        exact h
      have hf := first_append_newline c rest more (hp _ List.mem_cons_self)
      have hl : (first c rest).2.length < (c :: rest).length := first_length c rest
      have he : Ended (first c rest).2 := fun p hm => hp p (List.mem_cons_of_mem _ hm)
      rw [List.cons_append, cut_cons, hf, ih _ hl he rfl, cut_cons, List.cons_append]

/-- A string that a newline does not end has no end. -/
theorem Ended.of_newline {source : List Char} (h : Ended (source ++ ['\n'])) : Ended source := by
  induction hk : source.length using Nat.strongRecOn generalizing source with
  | _ k ih =>
    subst hk
    cases source with
    | nil =>
      intro p hp
      rw [cut_nil] at hp
      cases hp
    | cons c rest =>
      have hp : ∀ p ∈ (first c (rest ++ ['\n'])).1 :: cut (first c (rest ++ ['\n'])).2,
          p.role ≠ .unterminated := by
        rw [← cut_cons]
        exact h
      have hfirst : (first c rest).1.role ≠ .unterminated := by
        intro hu
        have hfits := first_fits c rest
        rw [hu] at hfits
        obtain ⟨rfl, hd⟩ := hfits
        have hd' : (rest ++ ['\n']).dropWhile (· ≠ quote) = [] := by
          rw [List.dropWhile_append, hd]
          decide
        refine hp _ List.mem_cons_self ?_
        show (string (rest ++ ['\n'])).1.role = .unterminated
        unfold string
        rw [hd']
      have hf := first_append_newline c rest [] hfirst
      rw [hf] at hp
      have hl : (first c rest).2.length < (c :: rest).length := first_length c rest
      have he : Ended (first c rest).2 :=
        ih _ hl (fun p hm => hp p (List.mem_cons_of_mem _ hm)) rfl
      intro p hm
      rw [cut_cons, List.mem_cons] at hm
      rcases hm with rfl | hm
      · exact hfirst
      · exact he p hm

/-- No token but the last ends the input. -/
theorem role_ne_end (source : List Char) : ∀ p ∈ cut source, p.role ≠ .token .endOfInput := by
  induction hk : source.length using Nat.strongRecOn generalizing source with
  | _ k ih =>
    subst hk
    cases source with
    | nil =>
      intro p hp
      rw [cut_nil] at hp
      cases hp
    | cons c rest =>
      intro p hp he
      have hl : (first c rest).2.length < (c :: rest).length := first_length c rest
      rw [cut_cons, List.mem_cons] at hp
      rcases hp with rfl | hp
      · have hfits := first_fits c rest
        rw [he] at hfits
        exact hfits rfl
      · exact ih _ hl _ rfl p hp he

/-- The line on which the last piece ends. -/
def lastLine (line : Nat) (pieces : List Piece) : Nat := pieces.foldl endLine line

theorem lastLine_eq (line : Nat) (pieces : List Piece) :
    lastLine line pieces = line + (pieces.flatMap text).count '\n' := by
  unfold lastLine
  induction pieces generalizing line with
  | nil => rfl
  | cons p pieces ih =>
    rw [List.foldl_cons, ih, List.flatMap_cons, List.count_append, endLine]
    omega

theorem lastLine_cut (line : Nat) (source : List Char) :
    lastLine line (cut source) = line + source.count '\n' := by
  rw [lastLine_eq, cut_text]

/-- Every piece is a token, a blank or a comment. -/
def Faultless (pieces : List Piece) : Prop :=
  ∀ p ∈ pieces, p.role ≠ .unexpected ∧ p.role ≠ .unterminated

theorem Faultless.ended {source : List Char} (h : Faultless (cut source)) : Ended source :=
  fun p hp => (h p hp).2

end Piece

/-! ### Tokens and their lines -/

namespace Scan

open Piece

/-- The tokens of the pieces that start on `line`. -/
def body (line : Nat) : List Piece → List Token
  | [] => []
  | p :: pieces =>
    match p.role with
    | .token kind => ⟨kind, String.ofList p.text, p.endLine line⟩ :: body (p.endLine line) pieces
    | _ => body (p.endLine line) pieces

theorem tokens_ofPieces : ∀ (line : Nat) (pieces : List Piece),
    (ofPieces line pieces).tokens =
      body line pieces ++ [⟨.endOfInput, "", lastLine line pieces⟩]
  | _, [] => rfl
  | line, p :: pieces => by
    have ih := tokens_ofPieces (p.endLine line) pieces
    have hl : lastLine (p.endLine line) pieces = lastLine line (p :: pieces) := rfl
    rw [ofPieces, body]
    rw [hl] at ih
    cases p.role with
    | token kind => exact congrArg (_ :: ·) ih
    | blank => exact ih
    | comment => exact ih
    | unexpected => exact ih
    | unterminated => exact ih

theorem faults_ofPieces : ∀ (line : Nat) (pieces : List Piece),
    (ofPieces line pieces).faults = [] ↔ Faultless pieces
  | _, [] => ⟨fun _ p hp => (List.not_mem_nil hp).elim, fun _ => rfl⟩
  | line, p :: pieces => by
    have ih := faults_ofPieces (p.endLine line) pieces
    have hc : Faultless (p :: pieces) ↔
        (p.role ≠ .unexpected ∧ p.role ≠ .unterminated) ∧ Faultless pieces := List.forall_mem_cons
    rw [hc, ← ih, ofPieces]
    cases p.role <;> simp

theorem body_append (line : Nat) (pieces more : List Piece) :
    body line (pieces ++ more) = body line pieces ++ body (lastLine line pieces) more := by
  induction pieces generalizing line with
  | nil => rfl
  | cons p pieces ih =>
    have hl : lastLine (p.endLine line) pieces = lastLine line (p :: pieces) := rfl
    rw [List.cons_append, body, body, ih, hl]
    cases p.role <;> rfl

/-- On later lines there are the same tokens, on later lines. -/
theorem body_moved (k line : Nat) (pieces : List Piece) :
    body (line + k) pieces = (body line pieces).map (Token.moved (· + k)) := by
  induction pieces generalizing line with
  | nil => rfl
  | cons p pieces ih =>
    have hl : p.endLine (line + k) = p.endLine line + k := by
      unfold Piece.endLine
      omega
    rw [body, body, hl, ih]
    cases p.role <;> rfl

theorem isEnd_of_mem_body {pieces : List Piece} (h : ∀ p ∈ pieces, p.role ≠ .token .endOfInput) :
    ∀ (line : Nat), ∀ t ∈ body line pieces, t.isEnd = false := by
  induction pieces with
  | nil =>
    intro line t ht
    cases ht
  | cons p pieces ih =>
    intro line t ht
    have ih := ih (fun q hq => h q (List.mem_cons_of_mem _ hq)) (p.endLine line) t
    have hp := h p List.mem_cons_self
    rw [body] at ht
    rcases hr : p.role with kind | _ | _ | _ | _
    · rw [hr] at ht
      rcases List.mem_cons.mp ht with rfl | ht
      · unfold Token.isEnd
        split
        · rename_i hk
          have hk : kind = .endOfInput := hk
          rw [hr, hk] at hp
          exact (hp rfl).elim
        · rfl
      · exact ih ht
    all_goals
      rw [hr] at ht
      exact ih ht

end Scan
end Lox
