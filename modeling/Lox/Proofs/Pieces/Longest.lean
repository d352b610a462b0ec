/-
# The longest pieces

The pieces of a source are cut by one rule: each is the longest text at the
front of what remains that can be a piece of any role. The rule leaves no
choice, and the tokens and diagnostics of the source are those of its pieces.

Key definitions: `Munched`, `Piece.placed`, `Piece.token?`, `Piece.diagnostic?`.
Key theorems: `Piece.length_first_le`, `Piece.first_longest`, `munched_iff_eq_cut`,
`scan_takes_longest_pieces`.
-/
import Lox.Proofs.Lines.Cutting
import Lox.Proofs.Pieces.Lexemes

namespace Lox

/-- The pieces cut the source from left to right, and each has the longest text of any role
that what remains begins with. -/
inductive Munched : List Char → List Piece → Prop
  | nil : Munched [] []
  | cons {p : Piece} {pieces : List Piece} {rest : List Char} (spells : Piece.Spells p.text p.role)
      (longest : ∀ text role, Piece.Spells text role → text <+: p.text ++ rest →
        text.length ≤ p.text.length)
      (later : Munched rest pieces) : Munched (p.text ++ rest) (p :: pieces)

namespace Piece

/-! ### A longer source makes no piece shorter -/

section Longer

variable (c : Char) (rest more : List Char)

theorem length_takeWhile_append_le (p : Char → Bool) :
    (rest.takeWhile p).length ≤ ((rest ++ more).takeWhile p).length := by
  have hle := (List.takeWhile_prefix p (l := rest)).length_le
  rw [List.takeWhile_append]
  split
  · rw [List.length_append]
    omega
  · exact Nat.le_refl _

/-- A string has two marks when something ends it. -/
theorem length_string : (string rest).1.text.length =
    if quote ∈ rest then (rest.takeWhile (· ≠ quote)).length + 2 else rest.length + 1 := by
  unfold string
  cases hd : rest.dropWhile (· ≠ quote) with
  | nil =>
    have hq : quote ∉ rest := fun hq => by simpa using List.dropWhile_eq_nil_iff.mp hd quote hq
    rw [if_neg hq]
    rfl
  | cons d after =>
    have hq : quote ∈ rest := by
      by_contra hq
      rw [List.dropWhile_eq_nil_iff.mpr (forall_ne_of_not_mem hq)] at hd
      simp at hd
    rw [if_pos hq]
    simp

theorem length_string_le : (string rest).1.text.length ≤ (string (rest ++ more)).1.text.length := by
  rw [length_string, length_string]
  have hle := length_takeWhile_append_le rest more (· ≠ quote)
  by_cases hq : quote ∈ rest
  · rw [if_pos hq, if_pos (List.mem_append_left more hq)]
    omega
  · have htake : (rest ++ more).takeWhile (· ≠ quote) = rest ++ more.takeWhile (· ≠ quote) :=
      List.takeWhile_append_of_pos (forall_ne_of_not_mem hq)
    rw [if_neg hq]
    split
    · rw [htake, List.length_append]
      omega
    · rw [List.length_append]
      omega

/-- The point and the digits after it that belong to a number. -/
def fractional : List Char → List Char
  | '.' :: after =>
    if after.takeWhile Char.isDigit = [] then [] else '.' :: after.takeWhile Char.isDigit
  | _ => []

theorem text_number : (number c rest).1.text =
    c :: rest.takeWhile Char.isDigit ++ fractional (rest.dropWhile Char.isDigit) := by
  unfold number
  split
  · rename_i after h
    rw [h, fractional]
    split
    · rename_i hp
      rw [if_pos hp, List.append_nil]
    · rename_i hp
      rw [if_neg hp]
  · rename_i h
    have hf : fractional (rest.dropWhile Char.isDigit) = [] := by
      unfold fractional
      split
      · exact (h _ ‹_›).elim
      · rfl
    rw [hf, List.append_nil]

theorem length_fractional_le :
    (fractional rest).length ≤ (fractional (rest ++ more)).length := by
  cases rest with
  | nil => simp [fractional]
  | cons d after =>
    by_cases hd : d = '.'
    · subst hd
      have hle := length_takeWhile_append_le after more Char.isDigit
      rw [List.cons_append, fractional, fractional]
      by_cases hp : after.takeWhile Char.isDigit = []
      · simp [hp]
      · have hpos := List.length_pos_iff.mpr hp
        have hp' : (after ++ more).takeWhile Char.isDigit ≠ [] :=
          List.ne_nil_of_length_pos (by omega)
        rw [if_neg hp, if_neg hp', List.length_cons, List.length_cons]
        omega
    · simp [fractional, hd]

theorem length_number_le :
    (number c rest).1.text.length ≤ (number c (rest ++ more)).1.text.length := by
  rw [text_number, text_number]
  cases hd : rest.dropWhile Char.isDigit with
  | nil =>
    have hw : ∀ d ∈ rest, d.isDigit = true := List.dropWhile_eq_nil_iff.mp hd
    rw [List.takeWhile_append_of_pos hw, List.takeWhile_eq_self_iff.mpr hw]
    simp [fractional]
  | cons d after =>
    obtain ⟨htake, hdrop⟩ := takeWhile_append_of_dropWhile hd more
    have hle := length_fractional_le (d :: after) more
    rw [htake, hdrop, List.length_append, List.length_append]
    omega

theorem length_word_le : (word c rest).1.text.length ≤ (word c (rest ++ more)).1.text.length :=
  Nat.succ_le_succ (length_takeWhile_append_le rest more continuesWord)

/-- Every piece has a character. -/
theorem length_first_pos : 0 < (first c rest).1.text.length := by
  obtain ⟨text, ht, -⟩ := first_append c rest
  simp [ht]

theorem length_operator_le (s : Symbol) :
    (operator s c rest).1.text.length ≤ (operator s c (rest ++ more)).1.text.length := by
  cases hj : s.withEqual? with
  | none => simp [operator, hj]
  | some joined =>
    by_cases he : ∃ after, rest = '=' :: after
    · obtain ⟨after, rfl⟩ := he
      simp [operator, hj]
    · have hone : (operator s c rest).1.text = [c] := by
        unfold operator
        split
        · rename_i after _
          exact (he ⟨after, rfl⟩).elim
        · rfl
      have htwo : 0 < (operator s c (rest ++ more)).1.text.length := by
        unfold operator
        split <;> simp
      rw [hone]
      exact htwo

theorem length_slash_le : (slash rest).1.text.length ≤ (slash (rest ++ more)).1.text.length := by
  by_cases he : ∃ after, rest = '/' :: after
  · obtain ⟨after, rfl⟩ := he
    have hle := length_takeWhile_append_le after more (· ≠ '\n')
    simpa [slash] using hle
  · have hone : (slash rest).1.text = ['/'] := by
      unfold slash
      split
      · rename_i after
        exact (he ⟨after, rfl⟩).elim
      · rfl
    have hpos := length_first_pos '/' (rest ++ more)
    rw [hone]
    exact hpos

/-- A longer source has no shorter first piece. -/
theorem length_first_le : (first c rest).1.text.length ≤ (first c (rest ++ more)).1.text.length := by
  by_cases hq : c = quote
  · subst hq
    exact length_string_le rest more
  by_cases hd : c.isDigit = true
  · rw [first_of_isDigit rest hd, first_of_isDigit _ hd]
    exact length_number_le c rest more
  by_cases hw : startsWord c = true
  · rw [first_of_startsWord rest hw, first_of_startsWord _ hw]
    exact length_word_le c rest more
  by_cases hb : isBlank c = true
  · rw [first_of_isBlank rest hb, first_of_isBlank _ hb]
  by_cases hs : c = '/'
  · subst hs
    exact length_slash_le rest more
  cases ho : Symbol.ofChar? c with
  | some s =>
    have hf : ∀ rest, first c rest = operator s c rest := by
      intro rest
      simp [first, hq, hd, hw, hb, hs, ho]
    rw [hf, hf]
    exact length_operator_le c rest more s
  | none => rw [first_unexpected hq hd hw hb hs ho, first_unexpected hq hd hw hb hs ho]

end Longer

/-! ### The cut is the one with the longest pieces -/

theorem eq_of_text_of_role {p q : Piece} (ht : p.text = q.text) (hr : p.role = q.role) : p = q := by
  cases p
  cases q
  simp_all

/-- No text of any role at the front of a source is longer than its first piece. -/
theorem first_longest {c : Char} {rest text : List Char} {role : Role} (h : Spells text role)
    (hp : text <+: c :: rest) : text.length ≤ (first c rest).1.text.length := by
  obtain ⟨d, more, rfl, hf⟩ := first_of_spells h
  obtain ⟨tail, ht⟩ := hp
  obtain ⟨rfl, rfl⟩ := List.cons.inj ht
  have hle := length_first_le d more tail
  rw [hf] at hle
  exact hle

theorem text_append_first (c : Char) (rest : List Char) :
    (first c rest).1.text ++ (first c rest).2 = c :: rest := by
  obtain ⟨more, ht, hr⟩ := first_append c rest
  rw [ht, List.cons_append, hr]

theorem munched_cut (source : List Char) : Munched source (cut source) := by
  fun_induction cut source with
  | case1 => exact .nil
  | case2 c rest ih =>
    have hm : Munched ((first c rest).1.text ++ (first c rest).2)
        ((first c rest).1 :: cut (first c rest).2) := by
      refine .cons (first_spells c rest) (fun text role h hp => ?_) ih
      rw [text_append_first] at hp
      exact first_longest h hp
    rwa [text_append_first] at hm

end Piece

open Piece

/-- **The scanner's cut is the only one with the longest pieces.** -/
theorem munched_iff_eq_cut {source : List Char} {pieces : List Piece} :
    Munched source pieces ↔ pieces = cut source := by
  constructor
  · intro h
    induction h with
    | nil => rw [cut_nil]
    | @cons p pieces rest spells longest _ ih =>
      obtain ⟨c, more, ht, -⟩ := first_of_spells spells
      have hsource : c :: (more ++ rest) = p.text ++ rest := by rw [ht, List.cons_append]
      have hfront : (first c (more ++ rest)).1.text ++ (first c (more ++ rest)).2 = p.text ++ rest := by
        rw [text_append_first, hsource]
      have hle : p.text.length ≤ (first c (more ++ rest)).1.text.length :=
        first_longest spells ⟨rest, hsource.symm⟩
      have hge : (first c (more ++ rest)).1.text.length ≤ p.text.length :=
        longest _ _ (first_spells c (more ++ rest)) ⟨_, hfront⟩
      obtain ⟨htext, hrest⟩ := List.append_inj hfront (Nat.le_antisymm hge hle)
      have hrole : (first c (more ++ rest)).1.role = p.role :=
        (htext ▸ first_spells c (more ++ rest)).unique spells
      have hpiece : (first c (more ++ rest)).1 = p := eq_of_text_of_role htext hrole
      rw [← hsource, cut_cons, hpiece, hrest, ih]
  · rintro rfl
    exact munched_cut source

/-! ### What is read off the pieces -/

namespace Piece

/-- The pieces, each with the line on which it ends. -/
def placed (pieces : List Piece) : List (Piece × Nat) :=
  pieces.mapIdx fun i p => (p, 1 + ((pieces.take (i + 1)).flatMap text).count '\n')

/-- The token that a piece is. -/
def token? (placed : Piece × Nat) : Option Token :=
  match placed.1.role with
  | .token kind => some ⟨kind, String.ofList placed.1.text, placed.2⟩
  | _ => none

/-- What is wrong with a piece. -/
def diagnostic? (placed : Piece × Nat) : Option Diagnostic :=
  match placed.1.role with
  | .unexpected => some (.static placed.2 "" "Unexpected character.")
  | .unterminated => some (.static placed.2 "" "Unterminated string.")
  | _ => none

/-- The pieces after a first line, each with the line on which it ends. -/
def placedFrom (line : Nat) : List Piece → List (Piece × Nat)
  | [] => []
  | p :: pieces => (p, p.endLine line) :: placedFrom (p.endLine line) pieces

theorem placedFrom_eq (line : Nat) (pieces : List Piece) : placedFrom line pieces =
    pieces.mapIdx fun i p => (p, line + ((pieces.take (i + 1)).flatMap text).count '\n') := by
  induction pieces generalizing line with
  | nil => rfl
  | cons p pieces ih =>
    rw [placedFrom, ih, List.mapIdx_cons]
    simp [endLine, List.count_append, Nat.add_assoc]

theorem placed_eq (pieces : List Piece) : placed pieces = placedFrom 1 pieces :=
  (placedFrom_eq 1 pieces).symm

theorem body_eq (line : Nat) (pieces : List Piece) :
    Scan.body line pieces = (placedFrom line pieces).filterMap token? := by
  induction pieces generalizing line with
  | nil => rfl
  | cons p pieces ih =>
    rw [Scan.body, placedFrom, List.filterMap_cons, token?, ih]
    cases p.role <;> rfl

theorem diagnostics_ofPieces (line : Nat) (pieces : List Piece) :
    (Scan.ofPieces line pieces).diagnostics = (placedFrom line pieces).filterMap diagnostic? := by
  induction pieces generalizing line with
  | nil => rfl
  | cons p pieces ih =>
    have ih := ih (p.endLine line)
    rw [Scan.ofPieces, placedFrom, List.filterMap_cons, diagnostic?, ← ih]
    cases p.role <;> rfl

/-- Nothing follows a string that does not end. -/
theorem first_unterminated {c : Char} {rest : List Char}
    (h : (first c rest).1.role = .unterminated) : (first c rest).2 = [] := by
  have hfits := first_fits c rest
  rw [h] at hfits
  obtain ⟨rfl, hd⟩ := hfits
  rw [first_quote, string, hd]

theorem role_dropLast_cut (source : List Char) : ∀ p ∈ (cut source).dropLast, p.role ≠ .unterminated := by
  fun_induction cut source with
  | case1 => simp
  | case2 c rest ih =>
    by_cases hr : (first c rest).2 = []
    · simp [hr, cut_nil]
    · have hne : cut (first c rest).2 ≠ [] := by
        intro h
        have ht := cut_text (first c rest).2
        rw [h] at ht
        exact hr ht.symm
      rw [List.dropLast_cons_of_ne_nil hne, List.forall_mem_cons]
      exact ⟨fun hu => hr (first_unterminated hu), ih⟩

end Piece

/-- **The scanner cuts by the longest piece.** There is one way to cut a source into pieces each
of which is the longest that what remains begins with, and only its last piece can be a string
without an end. The tokens are the tokens among these pieces in order, and then the end of
the input; the diagnostics are one for each character that belongs nowhere, and the last one for a
string without an end. Each stands on the line on which its piece ends. -/
theorem scan_takes_longest_pieces (source : String) :
    ∃ pieces : List Piece,
      (∀ other, Munched source.toList other ↔ other = pieces) ∧
      pieces.flatMap text = source.toList ∧
      (∀ p ∈ pieces.dropLast, p.role ≠ .unterminated) ∧
      (scan source).tokens = (placed pieces).filterMap token? ++
        [⟨.endOfInput, "", 1 + source.toList.count '\n'⟩] ∧
      (∀ t ∈ (placed pieces).filterMap token?, t.isEnd = false) ∧
      (scan source).diagnostics = (placed pieces).filterMap diagnostic? := by
  refine ⟨cut source.toList, fun other => munched_iff_eq_cut, cut_text _, role_dropLast_cut _, ?_, ?_, ?_⟩
  · rw [placed_eq, ← body_eq, scan, Scan.tokens_ofPieces, lastLine_cut]
  · rw [placed_eq, ← body_eq]
    exact Scan.isEnd_of_mem_body (role_ne_end source.toList) 1
  · rw [placed_eq, ← diagnostics_ofPieces, scan]

end Lox
