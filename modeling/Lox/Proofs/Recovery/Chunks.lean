/-
# Broken statements and their neighbours

A program put together of parts that are one declaration each, and of broken
lines, is read part by part: every part has the entry it has alone, and the
diagnostics are those of the parts in their order. A broken line has one
diagnostic besides those about targets of assignments, since recovery goes on
behind the semicolon that ends it.

Key definitions: `Apart`, `Whole`, `IsLine`, `Broken`.
Key theorems: `Grammar.apart_of_done`, `Grammar.apart_of_stuck`, `Grammar.program_flatten`,
`parse_by_parts`.
-/
import Mathlib
import Lox.Proofs.Grammar.Unambiguous
import Lox.Proofs.Lines.Moved
import Lox.Proofs.Recovery.Ahead
import Lox.Proofs.Recovery.OneLine

namespace Lox

/-! ### Declarations as readings -/

namespace Grammar

theorem before_phrase (t : Token) (after more : List Token) :
    (phrase t after).Before more (NoElse more) (phrase t (after ++ more)) := by
  rw [phrase, phrase]
  split
  · exact (before_variableDeclaration after).past.of_ending
  · exact before_statement (t :: after)

/-- A line comes to its end or gets stuck on it. -/
theorem leaves_phrase {t : Token} {after : List Token} (h : OneLine (t :: after)) :
    (phrase t after).Leaves (· = []) OneLine := by
  rw [phrase]
  split
  · rename_i ht
    have hafter := h.later (by rw [ht]; decide)
    exact Reading.leaves_within _ (leaves_variableDeclaration OneLine.passesOn hafter)
  · exact leaves_statement (t :: after) h

/-- With no operand there is no operation. -/
theorem leaves_operation_of_operand {Q : List Token → Prop} {input : List Token}
    (h : (operand input).Leaves (fun _ => False) Q) :
    ∀ levels, (operation levels input).Leaves (fun _ => False) Q
  | [] => by
    rw [operation]
    exact h
  | level :: tighter => by
    rw [operation]
    exact Reading.leaves_andPerhaps (leaves_operation_of_operand h tighter)
      fun _ _ _ no => no.elim

/-- No declaration starts with `else`. -/
theorem leaves_phrase_of_else {t : Token} (ht : t.kind = .symbol .elseWord) (after : List Token) :
    (phrase t after).Leaves (fun _ => False) fun _ => True := by
  have hoperand : (operand (t :: after)).Leaves (fun _ => False) fun _ => True := by
    rw [operand, if_neg (by simp [Token.isSign, ht]), ht]
    exact Reading.leaves_stop rfl trivial
  have hexpression : (expression (t :: after)).Leaves (fun _ => False) fun _ => True := by
    rw [expression]
    exact Reading.leaves_andPerhaps (leaves_operation_of_operand hoperand _) fun _ _ _ no => no.elim
  have hs : statement (t :: after) = expressionStatement (t :: after) := by
    rw [statement, ht]
  rw [phrase, if_neg (by rw [ht]; decide), hs]
  exact Reading.leaves_andThen hexpression fun _ _ _ no => no.elim

theorem program_of_done {t : Token} {after rest : List Token} {s : Statement}
    {cs : List Complaint} {shorter : rest.length < after.length + 1}
    (h : phrase t after = .done s cs rest shorter) :
    program (t :: after) = (some s :: (program rest).1, cs ++ (program rest).2) := by
  rw [program_cons, declaration_eq, h]
  rfl

theorem program_of_stuck {t : Token} {after rest : List Token} {p : Problem}
    {cs : List Complaint} {within : rest.length ≤ after.length + 1}
    (h : phrase t after = .stuck p cs rest within) :
    program (t :: after) =
      (none :: (program (recover rest)).1,
        cs ++ [⟨rest.head?, p⟩] ++ (program (recover rest)).2) := by
  rw [program_cons, declaration_eq, h]
  rfl

theorem eq_nil_of_program {input : List Token} (h : (program input).1 = []) : input = [] := by
  cases input with
  | nil => rfl
  | cons t after =>
    rw [program_cons] at h
    cases h

end Grammar

/-! ### Parts that are read by themselves -/

/-- The tokens are one entry of a program, and the complaints about them the same, whatever follows
them but an `else`. None of the complaints is about the end of the input. -/
structure Apart (tokens : List Token) (entry : Option Statement) (cs : List Complaint) : Prop where
  noElse : NoElse tokens
  program_append : ∀ more, NoElse more → Grammar.program (tokens ++ more) =
    (entry :: (Grammar.program more).1, cs ++ (Grammar.program more).2)
  blamed : ∀ c ∈ cs, c.blamed ≠ none

theorem noElse_nil : NoElse [] := fun _ h => by cases h

theorem NoElse.append {tokens more : List Token} (h : NoElse tokens) (hm : NoElse more) :
    NoElse (tokens ++ more) := by
  cases tokens with
  | nil => exact hm
  | cons t after => exact h

namespace Apart

variable {tokens : List Token} {entry : Option Statement} {cs : List Complaint}

theorem program_alone (h : Apart tokens entry cs) : Grammar.program tokens = ([entry], cs) := by
  have ha := h.program_append [] noElse_nil
  rw [List.append_nil] at ha
  rw [ha, Grammar.program, List.append_nil]

/-- Alone the tokens are read the same, wherever the input ends. -/
theorem parse_alone (h : Apart tokens entry cs) {last : Token} (hl : last.isEnd = true)
    (ht : ∀ t ∈ tokens, t.isEnd = false) :
    (parse (tokens ++ [last])).declarations = [entry] ∧
      (parse (tokens ++ [last])).complaints = cs := by
  obtain ⟨hd, hc⟩ := parse_before_end hl ht
  rw [hd, hc, h.program_alone]
  exact ⟨rfl, rfl⟩

end Apart

namespace Grammar

/-- A declaration that is read to the end of its tokens stands apart. -/
theorem apart_of_done {t : Token} {after : List Token} {s : Statement} {cs : List Complaint}
    {w : [].length < after.length + 1} (hp : phrase t after = .done s cs [] w) :
    Apart (t :: after) (some s) cs := by
  have hn : NoElse (t :: after) := by
    intro u hu ht
    cases hu
    have hl := leaves_phrase_of_else ht after
    rw [hp] at hl
    exact hl.2
  have hread : ∀ more, NoElse more →
      program (t :: after ++ more) = (some s :: (program more).1, cs ++ (program more).2) ∧
        ∀ c ∈ cs, c.blamed ≠ none := by
    intro more hm
    have hb := before_phrase t after more
    rw [hp] at hb
    generalize hr : phrase t (after ++ more) = r at hb
    cases hb with
    | done _ _ _ _ hc => exact ⟨program_of_done hr, hc⟩
    | usedUp _ _ _ _ he => exact absurd hm he
  exact ⟨hn, fun more hm => (hread more hm).1, (hread [] noElse_nil).2⟩

/-- A line that reading gets stuck on stands apart, and recovery goes to its end. -/
theorem apart_of_stuck {t : Token} {after rest : List Token} {p : Problem} {cs : List Complaint}
    {w : rest.length ≤ after.length + 1} (hn : NoElse (t :: after))
    (hp : phrase t after = .stuck p cs rest w) (hline : OneLine rest) :
    Apart (t :: after) none (cs ++ [⟨rest.head?, p⟩]) := by
  obtain ⟨u, tail, rfl⟩ := hline.exists_cons
  have hread : ∀ more, program (t :: after ++ more) =
      (none :: (program more).1, cs ++ [⟨some u, p⟩] ++ (program more).2) ∧
        ∀ c ∈ cs ++ [⟨some u, p⟩], c.blamed ≠ none := by
    intro more
    have hb := before_phrase t after more
    rw [hp] at hb
    generalize hr : phrase t (after ++ more) = r at hb
    cases hb with
    | stuck _ _ _ _ hc =>
      have hrecovered := program_of_stuck hr
      rw [hline.recover_append more] at hrecovered
      exact ⟨hrecovered, List.forall_mem_append.mpr ⟨hc, by simp⟩⟩
  exact ⟨hn, fun more _ => (hread more).1, (hread []).2⟩

/-- What is read as one declaration stands apart. -/
theorem apart_of_one {tokens : List Token} {s : Statement} (h : (program tokens).1 = [some s]) :
    ∃ cs, Apart tokens (some s) cs := by
  cases tokens with
  | nil =>
    rw [program] at h
    cases h
  | cons t after =>
    cases hp : phrase t after with
    | stuck p cs rest w =>
      rw [program_of_stuck hp] at h
      cases h
    | done s' cs rest w =>
      rw [program_of_done hp] at h
      injection h with hs hrest
      obtain rfl := Option.some.inj hs
      obtain rfl := eq_nil_of_program hrest
      exact ⟨cs, apart_of_done hp⟩

/-- Parts that stand apart are read one after another. -/
theorem program_flatten : ∀ {parts : List (List Token)},
    (∀ tokens ∈ parts, ∃ entry cs, Apart tokens entry cs) →
    NoElse parts.flatten ∧ program parts.flatten =
      (parts.flatMap fun tokens => (program tokens).1, parts.flatMap fun tokens => (program tokens).2)
  | [], _ => ⟨noElse_nil, by rw [List.flatten_nil, program]; rfl⟩
  | tokens :: parts, h => by
    obtain ⟨⟨entry, cs, ha⟩, hparts⟩ := List.forall_mem_cons.mp h
    obtain ⟨hn, hp⟩ := program_flatten hparts
    refine ⟨ha.noElse.append hn, ?_⟩
    rw [List.flatten_cons, ha.program_append _ hn, hp, List.flatMap_cons, List.flatMap_cons,
      ha.program_alone]
    rfl

end Grammar

/-- If each part is read as one thing, so many are read of all. -/
theorem forall₂_flatMap {α β : Type} {read : β → List α} : ∀ {parts : List β},
    (∀ part ∈ parts, ∃ entry, read part = [entry]) →
    List.Forall₂ (fun entry part => read part = [entry]) (parts.flatMap read) parts
  | [], _ => .nil
  | part :: parts, h => by
    obtain ⟨⟨entry, he⟩, hparts⟩ := List.forall_mem_cons.mp h
    rw [List.flatMap_cons, he]
    exact .cons he (forall₂_flatMap hparts)

/-! ### Diagnostics -/

/-- What is wrong, without the place. -/
def Diagnostic.problem : Diagnostic → String
  | .static _ _ problem => problem
  | .evaluation _ problem => problem
  | .output reason => reason

theorem Complaint.problem_diagnostic (c : Complaint) (endLine : Nat) :
    (c.diagnostic endLine).problem = c.problem.message := by
  unfold diagnostic
  split <;> rfl

/-- A complaint about a token says nothing of the line that the input ends on. -/
theorem Complaint.diagnostic_of_blamed {c : Complaint} (h : c.blamed ≠ none) (m n : Nat) :
    c.diagnostic m = c.diagnostic n := by
  unfold diagnostic
  split
  · rfl
  · rename_i hb
    exact absurd hb h

theorem Problem.message_ne_target {p : Problem} (h : p ≠ .assignmentTarget) :
    p.message ≠ "Invalid assignment target." := by
  cases p <;> first | exact absurd rfl h | decide

theorem Apart.diagnostics {tokens : List Token} {entry : Option Statement} {cs : List Complaint}
    (h : Apart tokens entry cs) {last : Token} (hl : last.isEnd = true)
    (ht : ∀ t ∈ tokens, t.isEnd = false) (endLine : Nat) :
    (parse (tokens ++ [last])).diagnostics = cs.map (Complaint.diagnostic endLine) := by
  rw [Parse.diagnostics, (h.parse_alone hl ht).2]
  exact List.map_congr_left fun c hc => Complaint.diagnostic_of_blamed (h.blamed c hc) _ _

/-! ### Whole and broken parts -/

/-- The tokens are read as one declaration. -/
structure Whole (last : Token) (tokens : List Token) : Prop where
  inside : ∀ t ∈ tokens, t.isEnd = false
  read : ∃ s, (parse (tokens ++ [last])).declarations = [some s]

/-- The kinds of which a line has none in front of the semicolon that ends it. -/
def Kind.bounds : Kind → Bool
  | .symbol .semicolon | .symbol .leftBrace | .symbol .rightBrace | .endOfInput => true
  | _ => false

/-- The tokens of a line and the semicolon after them. -/
structure IsLine (front : List Token) (semicolon : Token) : Prop where
  ending : semicolon.kind = .symbol .semicolon
  inside : ∀ t ∈ front, t.kind.bounds = false
  first : ∀ t ∈ front.head?, t.kind ≠ .symbol .elseWord ∧ t.kind ≠ .symbol .forWord
  later : ∀ t ∈ front.tail, t.kind.startsStatement = false

/-- The tokens are a line that is not read as a declaration. -/
structure Broken (last : Token) (tokens : List Token) : Prop where
  line : ∃ front semicolon, tokens = front ++ [semicolon] ∧ IsLine front semicolon
  fails : none ∈ (parse (tokens ++ [last])).declarations

theorem Kind.breaksLine_eq_false {k : Kind} (h : k.bounds = false) (hf : k ≠ .symbol .forWord) :
    k.breaksLine = false := by
  unfold breaksLine
  split
  · cases h
  · cases h
  · cases h
  · exact absurd rfl hf
  · rfl

theorem Token.isEnd_eq_false {t : Token} (h : t.kind.bounds = false) : t.isEnd = false := by
  unfold isEnd
  split
  · rename_i ht
    rw [ht] at h
    cases h
  · rfl

namespace IsLine

variable {front : List Token} {semicolon : Token}

theorem breaksLine_eq_false (h : IsLine front semicolon) :
    ∀ t ∈ front, t.kind.breaksLine = false := by
  intro t ht
  refine Kind.breaksLine_eq_false (h.inside t ht) fun hf => ?_
  cases front with
  | nil => cases ht
  | cons u rest =>
    rcases List.mem_cons.mp ht with rfl | hrest
    · exact (h.first t rfl).2 hf
    · have hs := h.later t hrest
      rw [hf] at hs
      cases hs

theorem oneLine (h : IsLine front semicolon) : OneLine (front ++ [semicolon]) :=
  oneLine_append h.ending h.breaksLine_eq_false h.later

theorem noElse (h : IsLine front semicolon) : NoElse (front ++ [semicolon]) := by
  have hs : NoElse [semicolon] := by
    intro t ht
    cases ht
    rw [h.ending]
    decide
  exact NoElse.append (fun t ht => (h.first t ht).1) hs

theorem isEnd_eq_false (h : IsLine front semicolon) :
    ∀ t ∈ front ++ [semicolon], t.isEnd = false := by
  refine List.forall_mem_append.mpr ⟨fun t ht => Token.isEnd_eq_false (h.inside t ht), ?_⟩
  intro t ht
  obtain rfl := List.mem_singleton.mp ht
  rw [Token.isEnd, h.ending]

end IsLine

section Parts

variable {last : Token} {tokens : List Token}

theorem Whole.apart (hl : last.isEnd = true) (h : Whole last tokens) :
    ∃ entry cs, Apart tokens entry cs := by
  obtain ⟨s, hs⟩ := h.read
  rw [(parse_before_end hl h.inside).1] at hs
  exact ⟨some s, Grammar.apart_of_one hs⟩

theorem Broken.inside (h : Broken last tokens) : ∀ t ∈ tokens, t.isEnd = false := by
  obtain ⟨front, semicolon, rfl, hline⟩ := h.line
  exact hline.isEnd_eq_false

/-- All complaints about a broken line are about targets of assignments, but the last one. -/
theorem Broken.apart (hl : last.isEnd = true) (h : Broken last tokens) :
    ∃ cs c, Apart tokens none (cs ++ [c]) ∧ c.problem ≠ .assignmentTarget ∧
      ∀ c ∈ cs, c.problem = .assignmentTarget := by
  have hinside := h.inside
  obtain ⟨⟨front, semicolon, rfl, hline⟩, hfails⟩ := h
  rw [(parse_before_end hl hinside).1] at hfails
  have hone := hline.oneLine
  have hn := hline.noElse
  obtain ⟨t, after, ht⟩ := hone.exists_cons
  rw [ht] at hfails hone hn ⊢
  have hleaves := Grammar.leaves_phrase hone
  cases hp : Grammar.phrase t after with
  | done s cs rest w =>
    -- the line is read to its end, so it is one entry of the program
    rw [hp] at hleaves
    obtain ⟨-, rfl⟩ := hleaves
    rw [Grammar.program_of_done hp, Grammar.program] at hfails
    simp at hfails
  | stuck p cs rest w =>
    rw [hp] at hleaves
    obtain ⟨hcs, hplain, hrest⟩ := hleaves
    have hproblem := (Problem.isFatal_iff p).mp (Problem.isFatal_of_isPlain hplain)
    exact ⟨cs, ⟨rest.head?, p⟩, Grammar.apart_of_stuck hn hp hrest, hproblem, hcs⟩

end Parts

/-- **Neighbours of a broken line are read as without it.** A program of whole parts and broken
lines has one entry for each of them, the one it has alone, and the diagnostics of each in their
order. A broken line has exactly one besides those about targets of assignments. -/
theorem parse_by_parts (alone last : Token) (ha : alone.isEnd = true) (hl : last.isEnd = true)
    (parts : List (List Token))
    (h : ∀ tokens ∈ parts, Whole alone tokens ∨ Broken alone tokens) :
    List.Forall₂ (fun entry tokens => (parse (tokens ++ [alone])).declarations = [entry])
      (parse (parts.flatten ++ [last])).declarations parts ∧
    (parse (parts.flatten ++ [last])).diagnostics =
      parts.flatMap (fun tokens => (parse (tokens ++ [alone])).diagnostics) ∧
    ∀ tokens ∈ parts, Broken alone tokens →
      ∃ before d, (parse (tokens ++ [alone])).diagnostics = before ++ [d] ∧
        d.problem ≠ "Invalid assignment target." ∧
        ∀ e ∈ before, e.problem = "Invalid assignment target." := by
  have hinside : ∀ tokens ∈ parts, ∀ t ∈ tokens, t.isEnd = false := fun tokens ht =>
    (h tokens ht).elim Whole.inside Broken.inside
  have hapart : ∀ tokens ∈ parts, ∃ entry cs, Apart tokens entry cs := by
    intro tokens ht
    rcases h tokens ht with hw | hb
    · exact hw.apart ha
    · obtain ⟨cs, c, happ, -⟩ := hb.apart ha
      exact ⟨none, cs ++ [c], happ⟩
  have hflat : ∀ t ∈ parts.flatten, t.isEnd = false := by
    intro t ht
    obtain ⟨tokens, hmem, ht⟩ := List.mem_flatten.mp ht
    exact hinside tokens hmem t ht
  obtain ⟨hd, hc⟩ := parse_before_end hl hflat
  obtain ⟨-, hprogram⟩ := Grammar.program_flatten hapart
  have hentries : (parse (parts.flatten ++ [last])).declarations =
      parts.flatMap fun tokens => (parse (tokens ++ [alone])).declarations := by
    rw [hd, hprogram]
    exact List.flatMap_congr fun tokens ht => (parse_before_end ha (hinside tokens ht)).1.symm
  refine ⟨?_, ?_, ?_⟩
  · rw [hentries]
    refine forall₂_flatMap fun tokens ht => ?_
    obtain ⟨entry, cs, happ⟩ := hapart tokens ht
    exact ⟨entry, (happ.parse_alone ha (hinside tokens ht)).1⟩
  · rw [Parse.diagnostics, hc, hprogram, List.map_flatMap]
    refine List.flatMap_congr fun tokens ht => ?_
    obtain ⟨entry, cs, happ⟩ := hapart tokens ht
    rw [happ.diagnostics ha (hinside tokens ht), happ.program_alone]
  · intro tokens ht hb
    obtain ⟨cs, c, happ, hproblem, hcs⟩ := hb.apart ha
    refine ⟨cs.map (Complaint.diagnostic 0), c.diagnostic 0, ?_, ?_, ?_⟩
    · rw [happ.diagnostics ha hb.inside 0, List.map_append]
      rfl
    · rw [c.problem_diagnostic]
      exact Problem.message_ne_target hproblem
    · intro e he
      obtain ⟨c', hc', rfl⟩ := List.mem_map.mp he
      rw [c'.problem_diagnostic, hcs c' hc']
      rfl

/-- `true = a b;`, `{ ; }` and `;`, where the block has a statement left out. -/
theorem parse_by_parts_of_three :
    let word : Token := ⟨.symbol .trueWord, "true", 1⟩
    let equals : Token := ⟨.symbol .equal, "=", 1⟩
    let a : Token := ⟨.identifier "a", "a", 1⟩
    let b : Token := ⟨.identifier "b", "b", 1⟩
    let semicolon : Token := ⟨.symbol .semicolon, ";", 1⟩
    let line := [word, equals, a, b, semicolon]
    let block := [⟨.symbol .leftBrace, "\x7b", 1⟩, semicolon, ⟨.symbol .rightBrace, "\x7d", 1⟩]
    let alone : Token := ⟨.endOfInput, "", 1⟩
    let last : Token := ⟨.endOfInput, "", 2⟩
    alone.isEnd = true ∧ last.isEnd = true ∧ Broken alone line ∧ Whole alone block ∧
      Broken alone [semicolon] ∧
      (parse ([line, block, [semicolon]].flatten ++ [last])).diagnostics =
        (parse (line ++ [alone])).diagnostics ++ (parse (block ++ [alone])).diagnostics ++
          (parse ([semicolon] ++ [alone])).diagnostics := by
  intro word equals a b semicolon line block alone last
  have hline : Broken alone line :=
    ⟨⟨[word, equals, a, b], semicolon, rfl, rfl, by decide, by decide, by decide⟩, by
      have hd : (parse (line ++ [alone])).declarations = [none] := by cbv
      rw [hd]
      exact List.mem_singleton_self none⟩
  have hblock : Whole alone block := ⟨by decide, ⟨.block [none], by cbv⟩⟩
  have hsemicolon : Broken alone [semicolon] :=
    ⟨⟨[], semicolon, rfl, rfl, by decide, by decide, by decide⟩, by
      have hd : (parse ([semicolon] ++ [alone])).declarations = [none] := by cbv
      rw [hd]
      exact List.mem_singleton_self none⟩
  have hparts : ∀ tokens ∈ [line, block, [semicolon]], Whole alone tokens ∨ Broken alone tokens := by
    intro tokens ht
    simp only [List.mem_cons, List.not_mem_nil, or_false] at ht
    rcases ht with rfl | rfl | rfl
    · exact .inr hline
    · exact .inl hblock
    · exact .inr hsemicolon
  have h := (parse_by_parts alone last rfl rfl _ hparts).2.1
  exact ⟨rfl, rfl, hline, hblock, hsemicolon, by simpa using h⟩

end Lox
