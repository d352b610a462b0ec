/-
# Values assigned to no name

When what stands left of an `=` is no name, the `=` is blamed and reading goes
on behind the value, as if neither were there. So if nothing else is
complained about in a program, it is read as the program without the blamed
tokens and the expressions read after them, which is complained about for
nothing.

To say which tokens those are, a token has a place: the number of tokens after
it. Reading looks at no lines, so the places can stand on the tokens as lines,
and a complaint then tells the place of the token that it blames.

Key definitions: `numbered`, `blamedPlaces`, `withoutValues`.
Key theorems: `Pruned.relates`, `Pruned.withoutValues`, `Grammar.program_withoutValues`,
`parse_withoutValues`.
-/
import Lox.Proofs.Grammar.Kept
import Lox.Proofs.Lines.Moved
import Lox.Proofs.Recovery.Blame

namespace Lox

/-! ### Places -/

/-- The token with that number of tokens after it. -/
def tokenAt? (input : List Token) (place : Nat) : Option Token := input.reverse[place]?

/-- The tokens on other lines: each stands on the line that is its place. -/
def numbered : List Token → List Token
  | [] => []
  | t :: after => { t with line := after.length } :: numbered after

/-- The lines of the tokens that are blamed, in the order of the complaints. -/
def blamedLines (cs : List Complaint) : List Nat := cs.filterMap fun c => c.blamed.map Token.line

/-- The places of the tokens that are blamed in a program, in the order of the complaints. -/
def blamedPlaces (input : List Token) : List Nat :=
  blamedLines (Grammar.program (numbered input)).2

/-- The tokens without those at the places and without the expression that is read after each of
them. -/
def withoutValues (places : List Nat) : List Token → List Token
  | [] => []
  | t :: after =>
    if after.length ∈ places then
      match Grammar.expression after with
      | .done _ _ rest _ => withoutValues places rest
      | .stuck .. => t :: withoutValues places after
    else t :: withoutValues places after
termination_by input => input.length

theorem tokenAt?_cons_length (t : Token) (after : List Token) :
    tokenAt? (t :: after) after.length = some t := by
  rw [tokenAt?, List.reverse_cons, ← List.length_reverse, List.getElem?_concat_length]

theorem tokenAt?_cons {t u : Token} {after : List Token} {place : Nat}
    (h : tokenAt? after place = some u) : tokenAt? (t :: after) place = some u := by
  rw [tokenAt?, List.reverse_cons, List.getElem?_append_left]
  · exact h
  · exact (List.getElem?_eq_some_iff.mp h).1

theorem tokenAt?_map (f : Token → Token) (input : List Token) (place : Nat) :
    tokenAt? (input.map f) place = (tokenAt? input place).map f := by
  rw [tokenAt?, ← List.map_reverse, List.getElem?_map, tokenAt?]

/-- Every token stands on the line that is its place. -/
def Numbered : List Token → Prop
  | [] => True
  | t :: after => t.line = after.length ∧ Numbered after

theorem length_numbered : ∀ input : List Token, (numbered input).length = input.length
  | [] => rfl
  | _ :: after => congrArg (· + 1) (length_numbered after)

theorem numbered_numbered : ∀ input : List Token, Numbered (numbered input)
  | [] => trivial
  | _ :: after => ⟨(length_numbered after).symm, numbered_numbered after⟩

namespace Numbered

theorem suffix {taken rest : List Token} (h : Numbered (taken ++ rest)) : Numbered rest := by
  induction taken with
  | nil => exact h
  | cons t taken ih => exact ih h.2

theorem line_bounds {taken rest : List Token} (h : Numbered (taken ++ rest)) {t : Token}
    (ht : t ∈ taken) : rest.length ≤ t.line ∧ t.line < (taken ++ rest).length := by
  induction taken with
  | nil => cases ht
  | cons u taken ih =>
    rcases List.mem_cons.mp ht with rfl | ht
    · rw [h.1]
      exact ⟨by simp, Nat.lt_succ_self _⟩
    · obtain ⟨hle, hlt⟩ := ih h.2 ht
      exact ⟨hle, Nat.lt_succ_of_lt hlt⟩

theorem tokenAt?_line {input : List Token} (h : Numbered input) {t : Token} (ht : t ∈ input) :
    tokenAt? input t.line = some t := by
  induction input with
  | nil => cases ht
  | cons u after ih =>
    rcases List.mem_cons.mp ht with rfl | ht
    · rw [h.1]
      exact tokenAt?_cons_length t after
    · exact tokenAt?_cons (ih h.2 ht)

theorem nodup_lines {input : List Token} (h : Numbered input) : (input.map Token.line).Nodup := by
  induction input with
  | nil => exact List.nodup_nil
  | cons t after ih =>
    refine List.nodup_cons.mpr ⟨fun hmem => ?_, ih h.2⟩
    obtain ⟨u, hu, hline⟩ := List.mem_map.mp hmem
    have hlt := (List.getElem?_eq_some_iff.mp (h.2.tokenAt?_line hu)).1
    rw [hline, h.1, List.length_reverse] at hlt
    exact Nat.lt_irrefl _ hlt

end Numbered

/-- The line of the token at a place. -/
def lineAt (input : List Token) (place : Nat) : Nat :=
  ((tokenAt? input place).map Token.line).getD 0

theorem moved_numbered_of_lines (g : Nat → Nat) : ∀ input : List Token,
    (∀ place t, tokenAt? input place = some t → g place = t.line) →
      (numbered input).map (Token.moved g) = input
  | [], _ => rfl
  | t :: after, h => by
    have hline := h after.length t (tokenAt?_cons_length t after)
    have hafter := moved_numbered_of_lines g after fun place u hu => h place u (tokenAt?_cons hu)
    rw [numbered, List.map_cons, hafter, Token.moved, hline]

/-- Back on their lines the tokens are what they were. -/
theorem moved_numbered (input : List Token) :
    (numbered input).map (Token.moved (lineAt input)) = input :=
  moved_numbered_of_lines _ input fun place t ht => by rw [lineAt, ht]; rfl

/-! ### Tokens without the values at places -/

section Values

variable {places : List Nat} {t : Token} {after : List Token}

theorem withoutValues_of_done (h : after.length ∈ places) {value : Expression} {cs : List Complaint}
    {rest : List Token} {shorter : rest.length < after.length}
    (hr : Grammar.expression after = .done value cs rest shorter) :
    withoutValues places (t :: after) = withoutValues places rest := by
  rw [withoutValues, if_pos h, hr]

theorem withoutValues_of_stuck {p : Problem} {cs : List Complaint} {rest : List Token}
    {within : rest.length ≤ after.length}
    (hr : Grammar.expression after = .stuck p cs rest within) :
    withoutValues places (t :: after) = t :: withoutValues places after := by
  rw [withoutValues, hr, ite_self]

theorem withoutValues_of_not_mem (h : after.length ∉ places) :
    withoutValues places (t :: after) = t :: withoutValues places after := by
  rw [withoutValues, if_neg h]

end Values

theorem withoutValues_moved (g : Nat → Nat) (places : List Nat) (input : List Token) :
    withoutValues places (input.map (Token.moved g)) =
      (withoutValues places input).map (Token.moved g) := by
  cases input with
  | nil => simp [withoutValues]
  | cons t after =>
    have hafter := withoutValues_moved g places after
    have hlength : (after.map (Token.moved g)).length = after.length := List.length_map _
    have halike := Grammar.alike_expression (g := g) after
    rw [List.map_cons]
    by_cases hmem : after.length ∈ places
    · have hmem' : (after.map (Token.moved g)).length ∈ places := by rwa [hlength]
      generalize hr' : Grammar.expression (after.map (Token.moved g)) = r' at halike
      cases hr : Grammar.expression after with
      | done value cs rest shorter =>
        rw [hr] at halike
        cases halike
        rw [withoutValues_of_done hmem' hr', withoutValues_of_done hmem hr]
        exact withoutValues_moved g places rest
      | stuck p cs rest within =>
        rw [hr] at halike
        cases halike
        rw [withoutValues_of_stuck hr', withoutValues_of_stuck hr, hafter, List.map_cons]
    · have hmem' : (after.map (Token.moved g)).length ∉ places := by rwa [hlength]
      rw [withoutValues_of_not_mem hmem', withoutValues_of_not_mem hmem, hafter, List.map_cons]
termination_by input.length

/-! ### What is kept -/

/-- The value behind an `=` is taken, and what is blamed in it is part of it. -/
theorem blames_value {after rest : List Token} {value : Expression} {cs : List Complaint}
    {shorter : rest.length < after.length}
    (hr : Grammar.expression after = .done value cs rest shorter) : Blames after cs rest := by
  have h : (Grammar.expression after).Relates Blames after :=
    Grammar.relates_expression stepwise_blames after
  rwa [hr] at h

namespace Pruned

variable {input rest kept : List Token} {cs : List Complaint}

theorem relates {R : List Token → List Complaint → List Token → Prop} (hR : Stepwise R)
    (h : Pruned input cs kept rest) : R input cs rest := by
  induction h with
  | nothing rest => exact hR.nothing rest
  | keep t _ ih => exact hR.later t ih
  | @drop t ht after mid value ds shorter hv cs kept rest _ ih =>
    have hvalue : (Grammar.expression after).Relates R after := Grammar.relates_expression hR after
    rw [hv] at hvalue
    have hboth := hR.trans (hR.target ht hvalue) ih
    rwa [List.append_assoc] at hboth

end Pruned

theorem Blames.length_le {input rest : List Token} {cs : List Complaint}
    (h : Blames input cs rest) : rest.length ≤ input.length := by
  obtain ⟨taken, rfl, -⟩ := h
  simp

/-- The tokens that are blamed are among those taken. -/
theorem Blames.line_bounds {input rest : List Token} {cs : List Complaint}
    (h : Blames input cs rest) (hn : Numbered input) {place : Nat} (hp : place ∈ blamedLines cs) :
    rest.length ≤ place ∧ place < input.length := by
  obtain ⟨taken, rfl, hblame⟩ := h
  obtain ⟨c, hc, hline⟩ := List.mem_filterMap.mp hp
  obtain ⟨t, ht, rfl⟩ := Option.map_eq_some_iff.mp hline
  exact hn.line_bounds (hblame.once.subset (List.mem_filterMap.mpr ⟨c, hc, ht⟩))

theorem blamedLines_append (cs ds : List Complaint) :
    blamedLines (cs ++ ds) = blamedLines cs ++ blamedLines ds := List.filterMap_append

/-- Where the places are those of the tokens that are blamed on the way, what is kept is what is not
at one of them and not in the value behind it. -/
theorem Pruned.withoutValues {places : List Nat} {input rest kept : List Token}
    {cs : List Complaint} (h : Pruned input cs kept rest) (hn : Numbered input)
    (hp : ∀ place, rest.length ≤ place → place < input.length →
      (place ∈ places ↔ place ∈ blamedLines cs)) :
    withoutValues places input = kept ++ withoutValues places rest := by
  induction h with
  | nothing => rfl
  | @keep t input cs kept rest h ih =>
    have hblames := h.relates stepwise_blames
    have hnot : input.length ∉ places := fun hmem => by
      have hline := (hp _ hblames.length_le (Nat.lt_succ_self _)).mp hmem
      exact Nat.lt_irrefl _ (hblames.line_bounds hn.2 hline).2
    have hrest := ih hn.2 fun place hle hlt => hp place hle (Nat.lt_succ_of_lt hlt)
    rw [withoutValues_of_not_mem hnot, hrest]
    rfl
  | @drop t ht after mid value ds shorter hv cs kept rest h ih =>
    have hblames := h.relates stepwise_blames
    have hvalue := blames_value hv
    have hmid : Numbered mid := by
      obtain ⟨taken, rfl, -⟩ := hvalue
      exact hn.2.suffix
    have hlines : blamedLines (ds ++ ⟨some t, .assignmentTarget⟩ :: cs) =
        blamedLines ds ++ after.length :: blamedLines cs := by
      rw [blamedLines_append, ← hn.1]
      rfl
    have hle := Nat.le_trans hblames.length_le (Nat.le_of_lt shorter)
    have hmem : after.length ∈ places := by
      refine (hp _ hle (Nat.lt_succ_self _)).mpr ?_
      rw [hlines]
      exact List.mem_append_right _ List.mem_cons_self
    rw [withoutValues_of_done hmem hv]
    refine ih hmid fun place hle hlt => ?_
    -- what is blamed in the value stands before `mid`
    have hbehind : place ∉ blamedLines ds := fun h =>
      Nat.not_lt_of_le (hvalue.line_bounds hn.2 h).1 hlt
    have hlater : place < after.length := Nat.lt_trans hlt shorter
    rw [hp place hle (Nat.lt_succ_of_lt hlater), hlines, List.mem_append, List.mem_cons]
    simp [hbehind, Nat.ne_of_lt hlater]

/-- What is left of a list without such values is part of it. -/
theorem withoutValues_sublist (places : List Nat) (input : List Token) :
    (withoutValues places input).Sublist input := by
  cases input with
  | nil => rw [withoutValues]
  | cons t after =>
    have hkept : (t :: withoutValues places after).Sublist (t :: after) :=
      (withoutValues_sublist places after).cons_cons t
    by_cases hmem : after.length ∈ places
    · cases hr : Grammar.expression after with
      | done value cs rest shorter =>
        obtain ⟨taken, htaken, -⟩ := blames_value hr
        have hrest : rest.Sublist after := htaken ▸ List.sublist_append_right taken rest
        rw [withoutValues_of_done hmem hr]
        exact ((withoutValues_sublist places rest).trans hrest).cons t
      | stuck p cs rest within =>
        rw [withoutValues_of_stuck hr]
        exact hkept
    · rw [withoutValues_of_not_mem hmem]
      exact hkept
termination_by input.length

/-! ### Programs -/

section Programs

variable {input : List Token}

/-- If the complaints about a program are about targets only, so they are with its tokens
numbered. -/
theorem onlyTargets_numbered (hc : OnlyTargets (Grammar.program input).2) :
    OnlyTargets (Grammar.program (numbered input)).2 := by
  intro c hin
  rw [← moved_numbered input, Grammar.program_moved] at hc
  exact hc (c.moved _) (List.mem_map_of_mem hin)

/-- Without the values that were assigned to no name, a program is read as the same trees, and
nothing is complained about. -/
theorem Grammar.program_withoutValues (hc : OnlyTargets (program input).2) :
    program (withoutValues (blamedPlaces input) input) = ((program input).1, []) := by
  obtain ⟨d, htrees, hp⟩ := derives_program (numbered input) (onlyTargets_numbered hc)
  have hkept : withoutValues (blamedPlaces input) (numbered input) = d.tokens := by
    have h := hp.withoutValues (numbered_numbered input) fun _ _ _ => Iff.rfl
    rwa [withoutValues, List.append_nil] at h
  have hmoved := withoutValues_moved (lineAt input) (blamedPlaces input) (numbered input)
  rw [moved_numbered, hkept] at hmoved
  have hinput := program_moved (lineAt input) (numbered input)
  rw [moved_numbered] at hinput
  rw [hmoved, program_moved, d.program, htrees, hinput]
  rfl

/-- At the place that a numbered token tells there is that token, on its own line. -/
theorem tokenAt?_of_mem_numbered {t : Token} (ht : t ∈ numbered input) :
    tokenAt? input t.line = some (t.moved (lineAt input)) := by
  have h := tokenAt?_map (Token.moved (lineAt input)) (numbered input) t.line
  rwa [moved_numbered, (numbered_numbered input).tokenAt?_line ht] at h

theorem target_of_mem_program (hc : OnlyTargets (Grammar.program input).2) {c : Complaint}
    (h : c ∈ (Grammar.program input).2) :
    ∃ t ∈ input, t.kind = .symbol .equal ∧ c = ⟨some t, .assignmentTarget⟩ := by
  have hproblem := hc c h
  obtain ⟨t, ht, hblamed, hkind⟩ := (blame_program input).targets c h (by rw [hproblem]; rfl)
  refine ⟨t, ht, hkind, ?_⟩
  cases c
  cases hblamed
  cases hproblem
  rfl

/-- What is blamed are the tokens at the blamed places. -/
theorem blamed_program (hc : OnlyTargets (Grammar.program input).2) :
    (Grammar.program input).2.filterMap Complaint.blamed =
      (blamedPlaces input).filterMap (tokenAt? input) := by
  have hinput := congrArg Prod.snd (Grammar.program_moved (lineAt input) (numbered input))
  rw [moved_numbered] at hinput
  have hall := fun c => target_of_mem_program (onlyTargets_numbered hc) (c := c)
  rw [hinput, blamedPlaces]
  generalize (Grammar.program (numbered input)).2 = cs at hall
  induction cs with
  | nil => rfl
  | cons c cs ih =>
    obtain ⟨t, ht, -, rfl⟩ := hall c List.mem_cons_self
    have hrest := ih fun c hin => hall c (List.mem_cons_of_mem _ hin)
    have hplace := tokenAt?_of_mem_numbered ht
    show (t.moved (lineAt input) :: _ : List Token) = List.filterMap _ (t.line :: blamedLines cs)
    rw [List.filterMap_cons_some hplace, ← hrest]

theorem equal_of_blamedPlaces (hc : OnlyTargets (Grammar.program input).2) {place : Nat}
    (h : place ∈ blamedPlaces input) :
    ∃ t, tokenAt? input place = some t ∧ t.kind = .symbol .equal := by
  obtain ⟨c, hin, hline⟩ := List.mem_filterMap.mp h
  obtain ⟨t, ht, hkind, rfl⟩ := target_of_mem_program (onlyTargets_numbered hc) hin
  cases hline
  exact ⟨_, tokenAt?_of_mem_numbered ht, hkind⟩

theorem nodup_blamedPlaces (input : List Token) : (blamedPlaces input).Nodup := by
  obtain ⟨ts, hperm, hts⟩ := (blame_program (numbered input)).once
  have hplaces : blamedPlaces input =
      ((Grammar.program (numbered input)).2.filterMap Complaint.blamed).map Token.line := by
    rw [List.map_filterMap]
    rfl
  rw [hplaces]
  have hlines := (numbered_numbered input).nodup_lines
  exact (hperm.map Token.line).nodup ((hts.map Token.line).nodup hlines)

end Programs

/-- The diagnostics of complaints about targets. -/
theorem diagnostics_of_targets (endLine : Nat) {cs : List Complaint}
    (h : ∀ c ∈ cs, ∃ t, c = ⟨some t, .assignmentTarget⟩) :
    cs.map (Complaint.diagnostic endLine) = (cs.filterMap Complaint.blamed).map fun t =>
      .static t.line (" at '" ++ t.lexeme ++ "'") "Invalid assignment target." := by
  induction cs with
  | nil => rfl
  | cons c cs ih =>
    obtain ⟨t, rfl⟩ := h c List.mem_cons_self
    rw [List.map_cons, ih fun c hin => h c (List.mem_cons_of_mem _ hin)]
    rfl

/-- **A wrong target does not confuse the parser.** Where nothing but targets of assignments is
complained about, one diagnostic for each of the blamed `=`, the tokens without these and without
the values read after them are read as the same declarations, with no diagnostic. -/
theorem parse_withoutValues (body : List Token) (last : Token) (hl : last.isEnd = true)
    (hb : ∀ t ∈ body, t.isEnd = false)
    (hds : ∀ d ∈ (parse (body ++ [last])).diagnostics, d.problem = "Invalid assignment target.") :
    (blamedPlaces body).Nodup ∧
    (∀ place ∈ blamedPlaces body, ∃ t, tokenAt? body place = some t ∧ t.kind = .symbol .equal) ∧
    (parse (body ++ [last])).diagnostics =
      ((blamedPlaces body).filterMap (tokenAt? body)).map (fun t =>
        .static t.line (" at '" ++ t.lexeme ++ "'") "Invalid assignment target.") ∧
    (parse (withoutValues (blamedPlaces body) body ++ [last])).diagnostics = [] ∧
    (parse (withoutValues (blamedPlaces body) body ++ [last])).declarations =
      (parse (body ++ [last])).declarations := by
  have hparse := parse_of_first_end hb hl []
  have hrest : ∀ t ∈ withoutValues (blamedPlaces body) body, t.isEnd = false :=
    fun t ht => hb t ((withoutValues_sublist _ body).subset ht)
  have hparse' := parse_of_first_end hrest hl []
  rw [hparse] at hds ⊢
  have hc : OnlyTargets (Grammar.program body).2 := by
    intro c hin
    have hmessage := hds _ (List.mem_map_of_mem hin)
    rw [c.problem_diagnostic] at hmessage
    by_contra hproblem
    exact Problem.message_ne_target hproblem hmessage
  have hdiagnostics := diagnostics_of_targets last.line fun c hin =>
    have ⟨t, _, _, h⟩ := target_of_mem_program hc hin
    ⟨t, h⟩
  rw [blamed_program hc] at hdiagnostics
  rw [hparse', Grammar.program_withoutValues hc]
  exact ⟨nodup_blamedPlaces body, fun place h => equal_of_blamedPlaces hc h, hdiagnostics, rfl, rfl⟩

/-- `a = true = nil = b;`: the first `=` assigns to a name, and the value of the second one is
itself an assignment to no name. What is left is `a = true;`. -/
theorem parse_withoutValues_of_nested :
    let equals : Token := ⟨.symbol .equal, "=", 1⟩
    let a : Token := ⟨.identifier "a", "a", 1⟩
    let b : Token := ⟨.identifier "b", "b", 1⟩
    let yes : Token := ⟨.symbol .trueWord, "true", 1⟩
    let no : Token := ⟨.symbol .nilWord, "nil", 1⟩
    let semicolon : Token := ⟨.symbol .semicolon, ";", 1⟩
    let last : Token := ⟨.endOfInput, "", 1⟩
    let body := [a, equals, yes, equals, no, equals, b, semicolon]
    blamedPlaces body = [2, 4] ∧
      withoutValues (blamedPlaces body) body = [a, equals, yes, semicolon] ∧
      (parse (body ++ [last])).diagnostics = List.replicate 2
        (.static 1 " at '='" "Invalid assignment target.") ∧
      (parse (body ++ [last])).declarations =
        [some (.evaluate (.assign a (.literal (.boolean true))))] ∧
      (parse [a, equals, yes, semicolon, last]).diagnostics = [] ∧
      (parse [a, equals, yes, semicolon, last]).declarations =
        (parse (body ++ [last])).declarations := by
  intro equals a b yes no semicolon last body
  have hplaces : blamedPlaces body = [2, 4] := by cbv
  have hrest : withoutValues (blamedPlaces body) body = [a, equals, yes, semicolon] := by
    rw [hplaces]
    cbv
  have hread : (parse (body ++ [last])).diagnostics = List.replicate 2
      (.static 1 " at '='" "Invalid assignment target.") := by cbv
  obtain ⟨-, -, -, hclean, hsame⟩ :=
    parse_withoutValues body last rfl (by decide) (by rw [hread]; decide)
  rw [hrest] at hclean hsame
  exact ⟨hplaces, hrest, hread, by cbv, hclean, hsame⟩

end Lox
