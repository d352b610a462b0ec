/-
# Where recovery stops

A place in a list of tokens is the number of tokens before it, and what
reading has ahead of it there are the tokens up to the first one that ends the
input. Recovery goes from the place where a declaration failed to the first
later place that is a boundary: the end of the input, a place just after a
semicolon, or one just before a word that starts a statement. The token it
starts at is always passed, also when it is such a word, and the end of the
input never.

The loops that read declarations go on from there. The entries and complaints
that a loop has collected so far stand in front of what it collects later.

Key definitions: `endPlace`, `ahead`, `Boundary`, `Grammar.Collects`.
Key theorems: `Grammar.exists_place_recover`, `Grammar.Collects.failed`,
`Grammar.Collects.program_eq`, `Grammar.Collects.block_eq`, `recovery_stops_at_first_boundary`.
-/
import Mathlib
import Lox.Proofs.Recovery.Depth

namespace Lox

/-! ### Places and boundaries -/

/-- The place of the first token that ends the input, or of the end of the list if none does. -/
def endPlace (tokens : List Token) : Nat := tokens.findIdx Token.isEnd

/-- The tokens ahead at a place, up to the first one that ends the input. -/
def ahead (tokens : List Token) (place : Nat) : List Token :=
  (tokens.drop place).takeWhile (!·.isEnd)

/-- The words at which a statement or another declaration starts. -/
def statementWords : List Symbol :=
  [.classWord, .funWord, .varWord, .forWord, .ifWord, .whileWord, .printWord, .returnWord]

/-- The place is the end of the input, or it stands after a semicolon or before a word that starts
a statement. -/
def Boundary (tokens : List Token) (place : Nat) : Prop :=
  place = endPlace tokens ∨
    (∃ t ∈ tokens[place - 1]?, t.kind = .symbol .semicolon) ∨
    ∃ t ∈ tokens[place]?, ∃ word ∈ statementWords, t.kind = .symbol word

instance (tokens : List Token) (place : Nat) : Decidable (Boundary tokens place) :=
  inferInstanceAs (Decidable (_ ∨ _ ∨ _))

theorem Kind.startsStatement_iff (k : Kind) :
    k.startsStatement = true ↔ ∃ word ∈ statementWords, k = .symbol word := by
  cases k with
  | symbol s =>
    have hs : s.startsStatement = true ↔ s ∈ statementWords := by cases s <;> decide
    simpa [startsStatement] using hs
  | _ => simp [startsStatement]

theorem endPlace_cons {t : Token} (ht : t.isEnd = false) (rest : List Token) :
    endPlace (t :: rest) = endPlace rest + 1 := by
  rw [endPlace, List.findIdx_cons, ht]
  rfl

theorem endPlace_cons_of_isEnd {t : Token} (ht : t.isEnd = true) (rest : List Token) :
    endPlace (t :: rest) = 0 := by
  rw [endPlace, List.findIdx_cons, ht]
  rfl

theorem isEnd_of_lt_endPlace {t : Token} {rest : List Token} {p : Nat}
    (h : p < endPlace (t :: rest)) : t.isEnd = false := by
  cases ht : t.isEnd with
  | false => rfl
  | true =>
    rw [endPlace_cons_of_isEnd ht] at h
    exact absurd h (Nat.not_lt_zero p)

theorem ahead_zero_cons {t : Token} (ht : t.isEnd = false) (rest : List Token) :
    ahead (t :: rest) 0 = t :: ahead rest 0 :=
  List.takeWhile_cons_of_pos (by rw [ht]; rfl)

theorem ahead_zero_cons_of_isEnd {t : Token} (ht : t.isEnd = true) (rest : List Token) :
    ahead (t :: rest) 0 = [] :=
  List.takeWhile_cons_of_neg (by rw [ht]; decide)

theorem ahead_succ_cons (t : Token) (rest : List Token) (p : Nat) :
    ahead (t :: rest) (p + 1) = ahead rest p := rfl

/-- At the end of the input there is nothing ahead. -/
theorem ahead_endPlace (tokens : List Token) : ahead tokens (endPlace tokens) = [] := by
  induction tokens with
  | nil => rfl
  | cons t rest ih =>
    cases ht : t.isEnd with
    | false => rw [endPlace_cons ht, ahead_succ_cons, ih]
    | true => rw [endPlace_cons_of_isEnd ht, ahead_zero_cons_of_isEnd ht]

section Boundaries

variable {t u : Token} {rest : List Token} {p q : Nat}

/-- With a token in front the boundaries stand one place later. -/
theorem boundary_cons (ht : t.isEnd = false) (hq : 0 < q) :
    Boundary (t :: rest) (q + 1) ↔ Boundary rest q := by
  obtain ⟨k, rfl⟩ := Nat.exists_eq_add_of_lt hq
  simp [Boundary, endPlace_cons ht]

/-- Whether the place between two tokens is a boundary is for these two to say. -/
theorem boundary_between (ht : t.isEnd = false) :
    Boundary (t :: u :: rest) 1 ↔
      u.isEnd = true ∨ t.kind = .symbol .semicolon ∨ u.kind.startsStatement = true := by
  have hend : 1 = endPlace (t :: u :: rest) ↔ u.isEnd = true := by
    rw [endPlace_cons ht]
    cases hu : u.isEnd with
    | false => simp [endPlace_cons hu]
    | true => simp [endPlace_cons_of_isEnd hu]
  rw [Boundary, hend, Kind.startsStatement_iff]
  simp

theorem isLeast_boundary_cons (ht : t.isEnd = false)
    (h : IsLeast {k | p < k ∧ Boundary rest k} q) :
    IsLeast {k | p + 1 < k ∧ Boundary (t :: rest) k} (q + 1) := by
  obtain ⟨⟨hlt, hq⟩, hleast⟩ := h
  refine ⟨⟨Nat.succ_lt_succ hlt, (boundary_cons ht (Nat.zero_lt_of_lt hlt)).mpr hq⟩, ?_⟩
  rintro (_ | k) ⟨hk, hb⟩
  · exact absurd hk (Nat.not_lt_zero _)
  · have hpk := Nat.lt_of_succ_lt_succ hk
    exact Nat.succ_le_succ (hleast ⟨hpk, (boundary_cons ht (Nat.zero_lt_of_lt hpk)).mp hb⟩)

theorem isLeast_boundary_succ {tokens : List Token} (h : Boundary tokens (p + 1)) :
    IsLeast {k | p < k ∧ Boundary tokens k} (p + 1) :=
  ⟨⟨Nat.lt_succ_self p, h⟩, fun _ hk => hk.1⟩

/-- The next place need not be looked at if it is no boundary. -/
theorem isLeast_boundary_of_not {tokens : List Token} (hn : ¬ Boundary tokens (p + 1))
    (h : IsLeast {k | p + 1 < k ∧ Boundary tokens k} q) :
    IsLeast {k | p < k ∧ Boundary tokens k} q := by
  obtain ⟨⟨hlt, hq⟩, hleast⟩ := h
  refine ⟨⟨Nat.lt_of_succ_lt hlt, hq⟩, ?_⟩
  rintro k ⟨hk, hb⟩
  have hne : p + 1 ≠ k := by
    rintro rfl
    exact hn hb
  exact hleast ⟨Nat.lt_of_le_of_ne hk hne, hb⟩

end Boundaries

namespace Grammar

/-- From behind a token recovery goes to the first boundary that is not in front of it. -/
theorem exists_boundary_recoverAfter : ∀ {previous : Token} (rest : List Token),
    previous.isEnd = false →
    ∃ q, IsLeast {k | 0 < k ∧ Boundary (previous :: rest) k} q ∧
      recoverAfter previous (ahead rest 0) = ahead (previous :: rest) q
  | previous, [], h => ⟨1, isLeast_boundary_succ (.inl (endPlace_cons h []).symm), rfl⟩
  | previous, t :: rest, h => by
    have hbetween : Boundary (previous :: t :: rest) 1 ↔ _ := boundary_between h
    cases ht : t.isEnd with
    | true =>
      refine ⟨1, isLeast_boundary_succ (hbetween.mpr (.inl ht)), ?_⟩
      rw [ahead_succ_cons, ahead_zero_cons_of_isEnd ht]
      rfl
    | false =>
      rw [ahead_zero_cons ht, recoverAfter]
      split
      · rename_i hstops
        have hb := hbetween.mpr (.inr (by simpa using hstops))
        exact ⟨1, isLeast_boundary_succ hb, (ahead_zero_cons ht rest).symm⟩
      · rename_i hgoes
        have hnot : ¬ Boundary (previous :: t :: rest) 1 := by
          rw [hbetween]
          simpa [ht] using hgoes
        -- the place is passed, and what follows is seen from behind `t`
        obtain ⟨q, hq, hrecover⟩ := exists_boundary_recoverAfter rest ht
        exact ⟨q + 1, isLeast_boundary_of_not hnot (isLeast_boundary_cons h hq), hrecover⟩

/-- Recovery goes from a place before the end to the first boundary behind it. -/
theorem exists_boundary_recover : ∀ {tokens : List Token} {p : Nat}, p < endPlace tokens →
    ∃ q, IsLeast {k | p < k ∧ Boundary tokens k} q ∧
      recover (ahead tokens p) = ahead tokens q
  | [], p, h => absurd h (Nat.not_lt_zero p)
  | t :: rest, 0, h => by
    have ht := isEnd_of_lt_endPlace h
    rw [ahead_zero_cons ht]
    exact exists_boundary_recoverAfter rest ht
  | t :: rest, p + 1, h => by
    have ht := isEnd_of_lt_endPlace h
    rw [endPlace_cons ht] at h
    obtain ⟨q, hq, hrecover⟩ := exists_boundary_recover (Nat.lt_of_succ_lt_succ h)
    exact ⟨q + 1, isLeast_boundary_cons ht hq, hrecover⟩

/-- From a place that is not behind the end, recovery stays at the end or goes to the first boundary
behind the place. -/
theorem exists_place_recover {tokens : List Token} {p : Nat} (hp : p ≤ endPlace tokens) :
    ∃ q, (p = endPlace tokens → q = p) ∧
      (p ≠ endPlace tokens → IsLeast {k | p < k ∧ Boundary tokens k} q) ∧
      recover (ahead tokens p) = ahead tokens q := by
  by_cases hend : p = endPlace tokens
  · refine ⟨p, fun _ => rfl, fun hne => absurd hend hne, ?_⟩
    rw [hend, ahead_endPlace]
    rfl
  · obtain ⟨q, hq, hrecover⟩ := exists_boundary_recover (Nat.lt_of_le_of_ne hp hend)
    exact ⟨q, fun heq => absurd heq hend, fun _ => hq, hrecover⟩

/-! ### What has been collected -/

theorem block_cons {t : Token} {after : List Token} (ht : t.kind ≠ .symbol .rightBrace) :
    block (t :: after) =
      (((block (declaration t after).rest).map ((declaration t after).entry :: ·)).noting
        (declaration t after).complaints).within (Nat.le_of_lt (declaration t after).shorter) := by
  rw [block, if_neg ht]

/-- A loop that reads declarations from `input`, until there is no token or `stops` is true of the
next one, has collected these entries and complaints when it comes to `rest`. -/
inductive Collects (stops : Token → Bool) (input : List Token) :
    Declarations → List Complaint → List Token → Prop
  | nothing : Collects stops input [] [] input
  | turn {t : Token} {after : List Token} {entries : Declarations} {cs : List Complaint}
    (h : stops t = false) (earlier : Collects stops input entries cs (t :: after)) :
    Collects stops input (entries ++ [(declaration t after).entry])
      (cs ++ (declaration t after).complaints) (declaration t after).rest

namespace Collects

variable {stops : Token → Bool} {input rest : List Token} {entries : Declarations}
  {cs : List Complaint}

/-- After a declaration that failed the loop goes on where recovery stopped, with an empty entry for
the declaration and the complaint about the failure behind all others. -/
theorem failed {t : Token} {after : List Token} {problem : Problem} {noted : List Complaint}
    {within : rest.length ≤ after.length + 1} (h : Collects stops input entries cs (t :: after))
    (ht : stops t = false) (hp : phrase t after = .stuck problem noted rest within) :
    Collects stops input (entries ++ [none]) (cs ++ (noted ++ [⟨rest.head?, problem⟩]))
      (recover rest) := by
  have hturn := turn ht h
  rw [declaration_eq, hp] at hturn
  exact hturn

/-- What a program comes to is what its loop has collected so far and what it collects later. -/
theorem program_eq (h : Collects stops input entries cs rest) :
    program input = (entries ++ (program rest).1, cs ++ (program rest).2) := by
  induction h with
  | nothing => rfl
  | turn _ _ ih => rw [ih, program_cons, List.append_assoc, List.append_assoc]; rfl

/-- What a block comes to is what its loop has collected so far and what it collects later. -/
theorem block_eq (h : Collects Token.isRightBrace input entries cs rest) :
    ∃ hle, block input = (((block rest).map (entries ++ ·)).noting cs).within hle := by
  induction h with
  | nothing =>
    refine ⟨Nat.le_refl _, ?_⟩
    cases block input <;> rfl
  | @turn t after entries cs ht _ ih =>
    obtain ⟨hle, hblock⟩ := ih
    have hk : t.kind ≠ .symbol .rightBrace := of_decide_eq_false ht
    refine ⟨Nat.le_trans (Nat.le_of_lt (declaration t after).shorter) hle, ?_⟩
    rw [hblock, block_cons hk]
    cases block (declaration t after).rest <;> simp [Reading.within, Reading.noting, Reading.map]

end Collects
end Grammar

/-- **Recovery stops at the first boundary.** At the end of the input recovery stays, and from any
other place it goes to the first boundary behind it. What has been collected so far stays as it is:
where a declaration of the program or of a block fails at the place, the entries before it and the
complaints about them and about what was read of it stand in front, then come an empty entry and
the complaint about the failure, and then what is read from where recovery stopped. -/
theorem recovery_stops_at_first_boundary {tokens : List Token} {p : Nat}
    (hp : p ≤ endPlace tokens) :
    ∃ q, (p = endPlace tokens → q = p) ∧
      (p ≠ endPlace tokens → IsLeast {k | p < k ∧ Boundary tokens k} q) ∧
      Grammar.recover (ahead tokens p) = ahead tokens q ∧
      ∀ t after problem noted within,
        Grammar.phrase t after = .stuck problem noted (ahead tokens p) within →
        (∀ entries cs, Grammar.Collects (fun _ => false) (ahead tokens 0) entries cs (t :: after) →
          (parse tokens).declarations = entries ++ none :: (Grammar.program (ahead tokens q)).1 ∧
          (parse tokens).complaints = cs ++ noted ++
            ⟨(ahead tokens p).head?, problem⟩ :: (Grammar.program (ahead tokens q)).2) ∧
        ∀ i entries cs, t.isRightBrace = false →
          Grammar.Collects Token.isRightBrace (ahead tokens i) entries cs (t :: after) →
          ∃ hle, Grammar.block (ahead tokens i) =
            (((Grammar.block (ahead tokens q)).map (entries ++ none :: ·)).noting
              (cs ++ noted ++ [⟨(ahead tokens p).head?, problem⟩])).within hle := by
  obtain ⟨q, hstay, hfirst, hrecover⟩ := Grammar.exists_place_recover hp
  refine ⟨q, hstay, hfirst, hrecover, fun t after problem noted within hstuck => ⟨?_, ?_⟩⟩
  · intro entries cs hcollects
    have hlater := hcollects.failed rfl hstuck
    rw [hrecover] at hlater
    have hparse : parse tokens = ⟨(Grammar.program (ahead tokens 0)).1,
      (Grammar.program (ahead tokens 0)).2, endLine tokens⟩ := rfl
    rw [hparse, hlater.program_eq]
    simp
  · intro i entries cs ht hcollects
    have hlater := hcollects.failed ht hstuck
    rw [hrecover] at hlater
    obtain ⟨hle, hblock⟩ := hlater.block_eq
    refine ⟨hle, hblock.trans ?_⟩
    simp

/-- `nil = a; var print b class`, where the declaration fails at `print` and recovery goes on to
`class`. The statement before it and the complaint about it stay. -/
theorem recovery_stops_at_first_boundary_of_words :
    let nothing : Token := ⟨.symbol .nilWord, "nil", 1⟩
    let equals : Token := ⟨.symbol .equal, "=", 1⟩
    let a : Token := ⟨.identifier "a", "a", 1⟩
    let semicolon : Token := ⟨.symbol .semicolon, ";", 1⟩
    let var : Token := ⟨.symbol .varWord, "var", 2⟩
    let print : Token := ⟨.symbol .printWord, "print", 2⟩
    let b : Token := ⟨.identifier "b", "b", 2⟩
    let word : Token := ⟨.symbol .classWord, "class", 3⟩
    let last : Token := ⟨.endOfInput, "", 3⟩
    let tokens := [nothing, equals, a, semicolon, var, print, b, word, last]
    5 ≤ endPlace tokens ∧ IsLeast {k | 5 < k ∧ Boundary tokens k} 7 ∧
      Grammar.recover [print, b, word] = [word] ∧
      (parse tokens).declarations = [some (.evaluate (.literal .nil)), none, none] ∧
      (parse tokens).complaints = [⟨some equals, .assignmentTarget⟩, ⟨some print, .variableName⟩,
        ⟨some word, .expression⟩] := by
  intro nothing equals a semicolon var print b word last tokens
  have hp : 5 ≤ endPlace tokens := by decide
  obtain ⟨q, -, hfirst, hrecover, hloops⟩ := recovery_stops_at_first_boundary hp
  have hleast := hfirst (by decide)
  have hq : q = 7 := by
    have hle : q ≤ 7 := hleast.2 ⟨by decide, by decide⟩
    have hlt : 5 < q := hleast.1.1
    have hne : q ≠ 6 := by
      rintro rfl
      exact absurd hleast.1.2 (by decide)
    omega
  subst hq
  have hread : Grammar.declaration nothing [equals, a, semicolon, var, print, b, word] =
      ⟨some (.evaluate (.literal .nil)), [⟨some equals, .assignmentTarget⟩],
        [var, print, b, word], by decide⟩ := by cbv
  have hstart : Grammar.Collects (fun _ => false) (ahead tokens 0) [] []
      [nothing, equals, a, semicolon, var, print, b, word] := .nothing
  have hcollects := Grammar.Collects.turn rfl hstart
  rw [hread] at hcollects
  have hstuck : Grammar.phrase var [print, b, word] =
      .stuck .variableName [] (ahead tokens 5) (by decide) := by cbv
  have hlater : Grammar.program (ahead tokens 7) = ([none], [⟨some word, .expression⟩]) := by cbv
  obtain ⟨hentries, hcomplaints⟩ := (hloops _ _ _ _ _ hstuck).1 _ _ hcollects
  rw [hlater] at hentries hcomplaints
  exact ⟨hp, hleast, hrecover, hentries, hcomplaints⟩

end Lox
