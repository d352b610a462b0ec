/-
# Progress

Whatever its tokens are, a program is read to its end. A declaration leaves
fewer tokens than it was given, also when it fails before its first token:
then recovery takes that token. So the loops that read declarations, that of
the program and those of its blocks, come to an end, each turn of them is an
entry, and the loop of the program stops at the first token that ends the
input. What stands behind that token is never looked at.

Key definitions: `Grammar.Turns`.
Key theorems: `Grammar.turns_program`, `Grammar.turns_block`, `Grammar.Turns.length_le`,
`parse_progresses`.
-/
import Mathlib
import Lox.Proofs.Grammar.Unambiguous
import Lox.Proofs.Recovery.Attempts

namespace Lox
namespace Grammar

/-! ### Loops over declarations -/

/-- A loop that reads declarations from `input`, until there is no token or `stops` is true of the
next one, comes to `rest`, with these entries and complaints. -/
inductive Turns (stops : Token → Bool) :
    List Token → Declarations → List Complaint → List Token → Prop
  | atEnd : Turns stops [] [] [] []
  | stop {t : Token} {after : List Token} (h : stops t = true) :
    Turns stops (t :: after) [] [] (t :: after)
  | turn {t : Token} {after : List Token} {entries : Declarations} {cs : List Complaint}
    {rest : List Token} (h : stops t = false)
    (later : Turns stops (declaration t after).rest entries cs rest) :
    Turns stops (t :: after) ((declaration t after).entry :: entries)
      ((declaration t after).complaints ++ cs) rest

namespace Turns

variable {stops : Token → Bool} {input rest : List Token} {entries : Declarations}
  {cs : List Complaint}

/-- Every turn takes a token at least. -/
theorem length_le (h : Turns stops input entries cs rest) :
    entries.length + rest.length ≤ input.length := by
  induction h with
  | atEnd => simp
  | stop => simp
  | @turn t after entries cs rest _ _ ih =>
    have hlt := (declaration t after).shorter
    simp only [List.length_cons]
    omega

end Turns

/-- The loop of a program comes to the end of it. -/
theorem turns_program (input : List Token) :
    Turns (fun _ => false) input (program input).1 (program input).2 [] := by
  cases input with
  | nil =>
    rw [program]
    exact .atEnd
  | cons t after =>
    have hlt := (declaration t after).shorter
    rw [program_cons]
    exact .turn rfl (turns_program (declaration t after).rest)
termination_by input.length

/-- The loop of a block comes to the brace that closes it or to the end of the input. -/
theorem turns_block (input : List Token) :
    ∃ entries cs rest, Turns Token.isRightBrace input entries cs rest ∧
      (block input).Ends
        (fun body noted after =>
          body = entries ∧ noted = cs ∧ ∃ brace, brace.isRightBrace = true ∧ rest = brace :: after)
        (fun p noted left => p = .braceAfterBlock ∧ noted = cs ∧ rest = [] ∧ left = []) := by
  cases input with
  | nil =>
    rw [block]
    exact ⟨[], [], [], .atEnd, rfl, rfl, rfl, rfl⟩
  | cons t after =>
    rw [block]
    by_cases ht : t.kind = .symbol .rightBrace
    · rw [if_pos ht]
      have hc : t.isRightBrace = true := decide_eq_true ht
      exact ⟨[], [], t :: after, .stop hc, rfl, rfl, t, hc, rfl⟩
    · rw [if_neg ht]
      have hlt := (declaration t after).shorter
      obtain ⟨entries, cs, rest, hturns, hends⟩ := turns_block (declaration t after).rest
      refine ⟨_, _, rest, .turn (decide_eq_false ht) hturns, ?_⟩
      rw [Reading.ends_within, Reading.ends_noting, Reading.ends_map]
      refine hends.imp ?_ ?_
      · rintro body noted left ⟨rfl, rfl, hbrace⟩
        exact ⟨rfl, rfl, hbrace⟩
      · rintro p noted left ⟨rfl, rfl, hrest⟩
        exact ⟨rfl, rfl, hrest⟩
termination_by input.length

/-! ### Places -/

theorem drop_of_suffix {tail input : List Token} (h : tail <:+ input) :
    ∃ i, i + tail.length = input.length ∧ input.drop i = tail := by
  obtain ⟨front, rfl⟩ := h
  exact ⟨front.length, by simp, by simp⟩

/-- A declaration that is read at a place of `input` leaves off at a later one. -/
theorem forward_of_drop {input : List Token} {i : Nat} {t : Token} {after : List Token}
    (h : input.drop i = t :: after) :
    ∃ j, i < j ∧ j ≤ input.length ∧ input.drop j = (declaration t after).rest := by
  have hlt := (declaration t after).shorter
  have hlength := congrArg List.length h
  have hsuffix : t :: after <:+ input := h ▸ List.drop_suffix i input
  obtain ⟨j, hj, hrest⟩ := drop_of_suffix ((account_declaration t after).forward.trans hsuffix)
  rw [List.length_drop, List.length_cons] at hlength
  exact ⟨j, by omega, by omega, hrest⟩

end Grammar

/-! ### The end of the input -/

/-- Where there is a token that ends the input, there is a first one. -/
theorem exists_first_end {tokens : List Token} (h : ∃ t ∈ tokens, t.isEnd = true) :
    ∃ front stop behind, tokens = front ++ stop :: behind ∧ (∀ t ∈ front, t.isEnd = false) ∧
      stop.isEnd = true := by
  obtain ⟨stop, hfind⟩ := Option.isSome_iff_exists.mp (List.find?_isSome.mpr h)
  obtain ⟨hstop, front, behind, htokens, hfront⟩ := List.find?_eq_some_iff_append.mp hfind
  exact ⟨front, stop, behind, htokens, fun t ht => by simpa using hfront t ht, hstop⟩

/-- Nothing behind the first token that ends the input is looked at. -/
theorem parse_of_first_end {front : List Token} {stop : Token}
    (hfront : ∀ t ∈ front, t.isEnd = false) (hstop : stop.isEnd = true) (behind : List Token) :
    parse (front ++ stop :: behind) =
      ⟨(Grammar.program front).1, (Grammar.program front).2, stop.line⟩ := by
  have hline : endLine (front ++ stop :: behind) = stop.line := by
    have hnone : front.find? Token.isEnd = none :=
      List.find?_eq_none.mpr fun t ht => by simp [hfront t ht]
    simp [endLine, List.find?_append, hnone, hstop]
  rw [parse, takeWhile_not_isEnd hstop hfront behind, hline]

/-- **Parsing always ends and always progresses.** The tokens before the first one that ends the
input are all read, and no other token: every attempt at a declaration, at the top or in a block,
stands at a place before the end, and a declaration that is read at such a place leaves off at a
later one; the loop of every block comes to a brace or to the end of its input, and the loop of the
program to the end. There are at most as many entries as tokens, and what stands behind the end has
no effect. -/
theorem parse_progresses (body : List Token) (last : Token) (hl : last.isEnd = true) :
    ∃ front stop behind, body ++ [last] = front ++ stop :: behind ∧
      (∀ t ∈ front, t.isEnd = false) ∧ stop.isEnd = true ∧
      (∀ attempt ∈ Grammar.attempts front, ∃ i, i < front.length ∧ attempt = front.drop i) ∧
      (∀ i t after, front.drop i = t :: after →
        ∃ j, i < j ∧ j ≤ front.length ∧ front.drop j = (Grammar.declaration t after).rest) ∧
      (∀ input, ∃ entries cs rest, Grammar.Turns Token.isRightBrace input entries cs rest ∧
        (Grammar.block input).Ends
          (fun read noted after => read = entries ∧ noted = cs ∧
            ∃ brace, brace.isRightBrace = true ∧ rest = brace :: after)
          (fun p noted left => p = .braceAfterBlock ∧ noted = cs ∧ rest = [] ∧ left = [])) ∧
      Grammar.Turns (fun _ => false) front (parse (body ++ [last])).declarations
        (parse (body ++ [last])).complaints [] ∧
      (parse (body ++ [last])).declarations.length ≤ front.length ∧
      ∀ other, (parse (front ++ stop :: other)).declarations = (parse (body ++ [last])).declarations ∧
        (parse (front ++ stop :: other)).diagnostics = (parse (body ++ [last])).diagnostics := by
  have hend : ∃ t ∈ body ++ [last], t.isEnd = true := ⟨last, by simp, hl⟩
  obtain ⟨front, stop, behind, htokens, hfront, hstop⟩ := exists_first_end hend
  have hparse := parse_of_first_end hfront hstop behind
  have hturns := Grammar.turns_program front
  rw [htokens]
  refine ⟨front, stop, behind, rfl, hfront, hstop, ?_, fun _ _ _ => Grammar.forward_of_drop,
    Grammar.turns_block, ?_, ?_, ?_⟩
  · intro attempt ha
    obtain ⟨hne, hsuffix⟩ := (Grammar.account_program front).inside attempt ha
    obtain ⟨i, hi, hdrop⟩ := Grammar.drop_of_suffix hsuffix
    have hpos := List.length_pos_iff.mpr hne
    exact ⟨i, by omega, hdrop.symm⟩
  · rw [hparse]
    exact hturns
  · rw [hparse]
    simpa using hturns.length_le
  · intro other
    rw [hparse, parse_of_first_end hfront hstop other]
    exact ⟨rfl, rfl⟩

/-- `} ; { class`, and a semicolon behind the end: one declaration fails before its first token, and
the other in a block that nothing closes. -/
theorem parse_progresses_past_strays :
    let strays : List Token := [⟨.symbol .rightBrace, "\x7d", 1⟩, ⟨.symbol .semicolon, ";", 1⟩,
      ⟨.symbol .leftBrace, "\x7b", 1⟩, ⟨.symbol .classWord, "class", 1⟩]
    let body := strays ++ [⟨.endOfInput, "", 1⟩, ⟨.symbol .semicolon, ";", 2⟩]
    let last : Token := ⟨.endOfInput, "", 2⟩
    last.isEnd = true ∧ Grammar.attempts strays = [strays, strays.drop 3, strays.drop 2] ∧
      (parse (body ++ [last])).declarations = [none, none] ∧
      ∃ front stop behind, body ++ [last] = front ++ stop :: behind ∧ stop.isEnd = true ∧
        (∀ attempt ∈ Grammar.attempts front, ∃ i, i < front.length ∧ attempt = front.drop i) ∧
        ∀ other, (parse (front ++ stop :: other)).declarations = [none, none] := by
  intro strays body last
  have hattempts : Grammar.attempts strays = [strays, strays.drop 3, strays.drop 2] := by cbv
  have hread : (parse (body ++ [last])).declarations = [none, none] := by cbv
  obtain ⟨front, stop, behind, htokens, -, hstop, hplaces, -, -, -, -, hbehind⟩ :=
    parse_progresses body last rfl
  refine ⟨rfl, hattempts, hread, front, stop, behind, htokens, hstop, hplaces, fun other => ?_⟩
  rw [(hbehind other).1, hread]

end Lox
