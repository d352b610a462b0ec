/-
# Layout

Between the tokens of a source there can be any blanks and comments, as long
as a blank ends each token. The text of a token is cut to the same token
wherever a blank follows it, and blanks and whole comments are cut to
themselves. So a source that is laid out in another way has the same tokens,
on other lines, and is read as the same program.

Key definitions: `Filler`, `Separator`, `laidOut`.
Key theorems: `Piece.cut_filler`, `Piece.cut_lexeme`, `cut_laidOut`, `parse_moved`,
`layout_does_not_matter`.
-/
import Lox.Proofs.Lines.Cutting
import Lox.Proofs.Lines.Running
import Lox.Proofs.Pieces.Lexemes

namespace Lox

/-! ### Separators -/

/-- Blanks, and comments with the newlines that end them. -/
inductive Filler : List Char → Prop
  | nil : Filler []
  | blank {c : Char} {rest : List Char} (hc : Piece.isBlank c = true) (h : Filler rest) :
    Filler (c :: rest)
  | comment {text rest : List Char} (ht : '\n' ∉ text) (h : Filler rest) :
    Filler ('/' :: '/' :: text ++ '\n' :: rest)

/-- What can stand between two tokens: blanks and comments, a blank first. -/
structure Separator (w : String) : Prop where
  filler : Filler w.toList
  begins : ∃ c rest, w.toList = c :: rest ∧ Piece.isBlank c = true

theorem Filler.of_blanks : ∀ {filler : List Char}, (∀ c ∈ filler, Piece.isBlank c = true) →
    Filler filler
  | [], _ => .nil
  | _ :: _, h => .blank (List.forall_mem_cons.mp h).1 (.of_blanks (List.forall_mem_cons.mp h).2)

theorem Separator.of_blanks {w : String} (h : ∀ c ∈ w.toList, Piece.isBlank c = true)
    (hne : w.toList ≠ []) : Separator w where
  filler := .of_blanks h
  begins := by
    obtain ⟨c, rest, hw⟩ := List.exists_cons_of_ne_nil hne
    exact ⟨c, rest, hw, h c (by rw [hw]; exact List.mem_cons_self)⟩

/-- The texts of the tokens, each with a separator before it. -/
def laidOut : List String → List Token → String
  | w :: separators, t :: tokens => w ++ (t.lexeme ++ laidOut separators tokens)
  | _, _ => ""

/-! ### How a laid out text is cut -/

namespace Piece

/-- The piece is no part of the program. -/
def Silent (p : Piece) : Prop := p.role = .blank ∨ p.role = .comment

theorem cut_blank {b : Char} (hb : isBlank b = true) (more : List Char) :
    cut (b :: more) = ⟨[b], .blank⟩ :: cut more := by
  rw [cut_cons, first_of_isBlank more hb]

theorem cut_filler {filler : List Char} (h : Filler filler) (more : List Char) :
    ∃ pieces, cut (filler ++ more) = pieces ++ cut more ∧ ∀ p ∈ pieces, p.Silent := by
  induction h with
  | nil => exact ⟨[], rfl, List.forall_mem_nil _⟩
  | @blank c rest hc h ih =>
    obtain ⟨pieces, hcut, hsilent⟩ := ih
    refine ⟨⟨[c], .blank⟩ :: pieces, ?_, List.forall_mem_cons.mpr ⟨.inl rfl, hsilent⟩⟩
    rw [List.cons_append, cut_blank hc, hcut, List.cons_append]
  | @comment text rest ht h ih =>
    obtain ⟨pieces, hcut, hsilent⟩ := ih
    obtain ⟨_, _, he, hf⟩ := isOne_comment ht
    cases he
    have hrole : (first '/' ('/' :: text)).1.role ≠ .unterminated := by
      rw [hf]
      exact fun h => by cases h
    have hfirst := first_append_newline '/' ('/' :: text) (rest ++ more) hrole
    rw [hf, List.nil_append] at hfirst
    refine ⟨⟨'/' :: '/' :: text, .comment⟩ :: ⟨['\n'], .blank⟩ :: pieces, ?_,
      List.forall_mem_cons.mpr ⟨.inr rfl, List.forall_mem_cons.mpr ⟨.inl rfl, hsilent⟩⟩⟩
    have happend : '/' :: '/' :: text ++ '\n' :: rest ++ more =
        '/' :: ('/' :: text ++ '\n' :: (rest ++ more)) := by simp
    rw [happend, cut_cons, hfirst, cut_newline, hcut, List.cons_append, List.cons_append]

/-- Before a blank the text of a token is that token. -/
theorem cut_lexeme {text : List Char} {kind : Kind} (h : Lexeme text kind) {b : Char}
    (hb : isBlank b = true) (more : List Char) :
    cut (text ++ b :: more) = ⟨text, .token kind⟩ :: cut (b :: more) := by
  obtain ⟨c, rest, rfl, hf⟩ := isOne_lexeme h
  have hrole : (first c rest).1.role = .token kind := by rw [hf]
  have hfirst := first_append_blank c rest more hb (by rw [hrole]; exact fun h => by cases h)
    (.inl (by rw [hrole]; exact fun h => by cases h))
  rw [List.cons_append, cut_cons, hfirst, hf, List.nil_append]

/-- The text of a token alone is that token. -/
theorem cut_lexeme_alone {text : List Char} {kind : Kind} (h : Lexeme text kind) :
    cut text = [⟨text, .token kind⟩] := by
  obtain ⟨c, more, rfl, hf⟩ := isOne_lexeme h
  rw [cut_cons, hf, cut_nil]

/-- The kind and the text of a token. -/
def word? (p : Piece) : Option (Kind × String) :=
  match p.role with
  | .token kind => some (kind, String.ofList p.text)
  | _ => none

theorem Silent.word? {p : Piece} (h : p.Silent) : p.word? = none := by
  unfold Piece.word?
  rcases h with h | h <;> rw [h]

theorem filterMap_word?_of_silent {pieces : List Piece} (h : ∀ p ∈ pieces, p.Silent) :
    pieces.filterMap Piece.word? = [] := List.filterMap_eq_nil_iff.mpr fun p hp => (h p hp).word?

theorem faultless_of_silent {pieces : List Piece} (h : ∀ p ∈ pieces, p.Silent) :
    Faultless pieces := by
  intro p hp
  rcases h p hp with hr | hr <;> simp [hr]

theorem map_body (line : Nat) (pieces : List Piece) :
    (Scan.body line pieces).map (fun t => (t.kind, t.lexeme)) = pieces.filterMap word? := by
  induction pieces generalizing line with
  | nil => rfl
  | cons p pieces ih =>
    rw [Scan.body, List.filterMap_cons, word?, ← ih (p.endLine line)]
    cases p.role <;> rfl

theorem Spells.lexeme {text : List Char} {kind : Kind} (h : Spells text (.token kind)) :
    Lexeme text kind := by
  cases h with
  | token h => exact h

theorem spells_of_mem_cut (source : List Char) : ∀ p ∈ cut source, Spells p.text p.role := by
  fun_induction cut source with
  | case1 => exact List.forall_mem_nil _
  | case2 c rest ih => exact List.forall_mem_cons.mpr ⟨first_spells c rest, ih⟩

end Piece

theorem Scan.map_tokens (source : String) :
    (scan source).tokens.map (fun t => (t.kind, t.lexeme)) =
      (Piece.cut source.toList).filterMap Piece.word? ++ [(.endOfInput, "")] := by
  rw [scan, Scan.tokens_ofPieces, List.map_append, Piece.map_body]
  rfl

theorem Scan.tokens_ne_nil (source : String) : (scan source).tokens ≠ [] := by
  rw [scan, Scan.tokens_ofPieces]
  simp

/-- The text of a token of a source is one of its kind. -/
theorem Scan.lexeme_of_mem_body {source : List Char} {line : Nat} :
    ∀ t ∈ Scan.body line (Piece.cut source), Lexeme t.lexeme.toList t.kind := by
  intro t ht
  have hword : (t.kind, t.lexeme) ∈ (Piece.cut source).filterMap Piece.word? := by
    rw [← Piece.map_body line]
    exact List.mem_map_of_mem ht
  obtain ⟨p, hp, hw⟩ := List.mem_filterMap.mp hword
  have hspells := Piece.spells_of_mem_cut source p hp
  unfold Piece.word? at hw
  split at hw
  · rename_i kind hrole
    obtain ⟨rfl, htext⟩ := Prod.mk.inj (Option.some.inj hw)
    rw [hrole] at hspells
    rw [← htext, String.toList_ofList]
    exact hspells.lexeme
  · cases hw

/-! ### Laid out texts -/

theorem laidOut_begins {separators : List String} (hs : ∀ w ∈ separators, Separator w)
    {tokens : List Token} (hlength : separators.length = tokens.length) (hne : tokens ≠ []) :
    ∃ b more, (laidOut separators tokens).toList = b :: more ∧ Piece.isBlank b = true := by
  cases tokens with
  | nil => exact absurd rfl hne
  | cons t tokens =>
    cases separators with
    | nil => cases hlength
    | cons w separators =>
      obtain ⟨b, rest, hw, hb⟩ := (hs w List.mem_cons_self).begins
      rw [laidOut, String.toList_append, hw, List.cons_append]
      exact ⟨b, _, rfl, hb⟩

/-- A laid out text is cut to its tokens, and to blanks and comments. -/
theorem cut_laidOut {last : Token} (hlast : last.lexeme = "") : ∀ {tokens : List Token}
    {separators : List String}, separators.length = (tokens ++ [last]).length →
    (∀ w ∈ separators, Separator w) → (∀ t ∈ tokens, Lexeme t.lexeme.toList t.kind) →
    Piece.Faultless (Piece.cut (laidOut separators (tokens ++ [last])).toList) ∧
      (Piece.cut (laidOut separators (tokens ++ [last])).toList).filterMap Piece.word? =
        tokens.map fun t => (t.kind, t.lexeme)
  | tokens, [], hlength, _, _ => by simp at hlength
  | [], w :: separators, hlength, hs, _ => by
    obtain ⟨pieces, hcut, hsilent⟩ := Piece.cut_filler (hs w List.mem_cons_self).filler []
    have hnil : separators = [] := List.length_eq_zero_iff.mp (by simpa using hlength)
    have htext : (laidOut (w :: separators) ([] ++ [last])).toList = w.toList ++ [] := by
      simp [laidOut, hlast, hnil]
    rw [htext, hcut, Piece.cut_nil, List.append_nil]
    exact ⟨Piece.faultless_of_silent hsilent, Piece.filterMap_word?_of_silent hsilent⟩
  | t :: tokens, w :: separators, hlength, hs, ht => by
    obtain ⟨hw, hseparators⟩ := List.forall_mem_cons.mp hs
    obtain ⟨hlexeme, htokens⟩ := List.forall_mem_cons.mp ht
    have hlength' : separators.length = (tokens ++ [last]).length := by simpa using hlength
    obtain ⟨hfaultless, hwords⟩ := cut_laidOut hlast hlength' hseparators htokens
    obtain ⟨b, more, hlater, hb⟩ := laidOut_begins hseparators hlength' (by simp)
    obtain ⟨pieces, hcut, hsilent⟩ := Piece.cut_filler hw.filler (t.lexeme.toList ++ b :: more)
    have htext : (laidOut (w :: separators) (t :: tokens ++ [last])).toList =
        w.toList ++ (t.lexeme.toList ++ b :: more) := by
      rw [List.cons_append, laidOut, String.toList_append, String.toList_append, hlater]
    rw [hlater] at hfaultless hwords
    rw [htext, hcut, Piece.cut_lexeme hlexeme hb]
    constructor
    · refine List.forall_mem_append.mpr ⟨Piece.faultless_of_silent hsilent, ?_⟩
      exact List.forall_mem_cons.mpr ⟨by simp, hfaultless⟩
    · rw [List.filterMap_append, Piece.filterMap_word?_of_silent hsilent, List.filterMap_cons, hwords]
      simp [Piece.word?, String.ofList_toList]

/-! ### Programs on other lines -/

theorem Complaint.diagnostic_moved (g : Nat → Nat) (endLine : Nat) (c : Complaint) :
    (c.moved g).diagnostic (g endLine) = (c.diagnostic endLine).moved g := by
  obtain ⟨_ | t, p⟩ := c <;> rfl

theorem endLine_moved (g : Nat → Nat) {tokens : List Token} (h : tokens ≠ []) :
    endLine (tokens.map (Token.moved g)) = g (endLine tokens) := by
  have hend : Token.isEnd ∘ Token.moved g = Token.isEnd := rfl
  unfold endLine
  rw [List.find?_map, hend, List.getLast?_map]
  cases tokens.find? Token.isEnd with
  | some t => rfl
  | none =>
    rw [List.getLast?_eq_some_getLast h]
    rfl

/-- A program on other lines is read as the same program on those lines. -/
theorem parse_moved (g : Nat → Nat) {tokens : List Token} (h : tokens ≠ []) :
    (parse (tokens.map (Token.moved g))).declarations =
        Declarations.moved g (parse tokens).declarations ∧
      (parse (tokens.map (Token.moved g))).diagnostics =
        (parse tokens).diagnostics.map (Diagnostic.moved g) := by
  have hend : (fun t : Token => !t.isEnd) ∘ Token.moved g = fun t => !t.isEnd := rfl
  have hfront : (tokens.map (Token.moved g)).takeWhile (!·.isEnd) =
      (tokens.takeWhile (!·.isEnd)).map (Token.moved g) := by
    rw [List.takeWhile_map, hend]
  have hparse : parse (tokens.map (Token.moved g)) =
      ⟨Declarations.moved g (parse tokens).declarations,
        (parse tokens).complaints.map (Complaint.moved g), g (parse tokens).endLine⟩ := by
    rw [parse, hfront, Grammar.program_moved, endLine_moved g h]
    rfl
  rw [hparse, Parse.diagnostics, Parse.diagnostics, List.map_map, List.map_map]
  exact ⟨rfl, List.map_congr_left fun c _ => c.diagnostic_moved g (parse tokens).endLine⟩

/-- **Layout does not matter.** Whatever blanks and comments stand between the tokens of a source, a
blank before and behind each, the text has no faults and the same tokens; it is read as the same
program, and with the same diagnostics, but for the lines. -/
theorem layout_does_not_matter (source : String) (separators : List String)
    (hlength : separators.length = (scan source).tokens.length)
    (hs : ∀ w ∈ separators, Separator w) :
    let again := scan (laidOut separators (scan source).tokens)
    again.diagnostics = [] ∧
    again.tokens.map (fun t => (t.kind, t.lexeme)) =
      (scan source).tokens.map (fun t => (t.kind, t.lexeme)) ∧
    Declarations.moved (fun _ => 0) (parse again.tokens).declarations =
      Declarations.moved (fun _ => 0) (parse (scan source).tokens).declarations ∧
    (parse again.tokens).diagnostics.map (Diagnostic.moved fun _ => 0) =
      (parse (scan source).tokens).diagnostics.map (Diagnostic.moved fun _ => 0) := by
  intro again
  have hsource := Scan.tokens_ofPieces 1 (Piece.cut source.toList)
  rw [← scan] at hsource
  rw [hsource] at hlength
  obtain ⟨hfaultless, hcut⟩ := cut_laidOut rfl hlength hs Scan.lexeme_of_mem_body
  rw [← hsource] at hfaultless hcut
  have hwords : again.tokens.map (fun t => (t.kind, t.lexeme)) =
      (scan source).tokens.map (fun t => (t.kind, t.lexeme)) := by
    show (scan (laidOut separators (scan source).tokens)).tokens.map _ = _
    rw [Scan.map_tokens, hcut, hsource, List.map_append]
    rfl
  have hmoved : again.tokens.map (Token.moved fun _ => 0) =
      (scan source).tokens.map (Token.moved fun _ => 0) := by
    have h := congrArg (List.map fun w : Kind × String => (⟨w.1, w.2, 0⟩ : Token)) hwords
    rw [List.map_map, List.map_map] at h
    exact h
  obtain ⟨hd, hdiagnostics⟩ := parse_moved (fun _ => 0) (Scan.tokens_ne_nil source)
  obtain ⟨hd', hdiagnostics'⟩ :=
    parse_moved (fun _ => 0) (Scan.tokens_ne_nil (laidOut separators (scan source).tokens))
  refine ⟨?_, hwords, ?_, ?_⟩
  · have hfaults : again.faults = [] := (Scan.faults_ofPieces 1 _).mpr hfaultless
    rw [Scan.diagnostics, hfaults]
    rfl
  · rw [← hd, ← hd', ← hmoved]
  · rw [← hdiagnostics, ← hdiagnostics', ← hmoved]

/-- `a==b;//c` laid out on several lines, with a comment that has an operator in it. -/
theorem layout_does_not_matter_on_lines :
    let source := "a==b;//c"
    let separators := [" ", "\n//=\n", "\t", "\r\n", "  "]
    separators.length = (scan source).tokens.length ∧ (∀ w ∈ separators, Separator w) ∧
      laidOut separators (scan source).tokens = " a\n//=\n==\tb\r\n;  " ∧
      (scan " a\n//=\n==\tb\r\n;  ").tokens.map (fun t => (t.kind, t.lexeme)) =
        (scan source).tokens.map (fun t => (t.kind, t.lexeme)) := by
  intro source separators
  have hlength : separators.length = (scan source).tokens.length := by cbv
  have hblanks : ∀ w ∈ [" ", "\t", "\r\n", "  "], Separator w := by
    intro w hw
    have hall : w.toList.all Piece.isBlank = true ∧ w.toList ≠ [] := by
      simp only [List.mem_cons, List.not_mem_nil, or_false] at hw
      rcases hw with rfl | rfl | rfl | rfl <;> decide
    exact .of_blanks (List.all_eq_true.mp hall.1) hall.2
  have hcomment : Separator "\n//=\n" := by
    have htext : "\n//=\n".toList = '\n' :: ('/' :: '/' :: ['='] ++ '\n' :: []) := by cbv
    constructor
    · rw [htext]
      exact .blank rfl (.comment (by decide) .nil)
    · exact ⟨_, _, htext, rfl⟩
  have hs : ∀ w ∈ separators, Separator w := by
    simp only [separators, List.forall_mem_cons] at hblanks ⊢
    tauto
  have htext : laidOut separators (scan source).tokens = " a\n//=\n==\tb\r\n;  " := by cbv
  have hwords := (layout_does_not_matter source separators hlength hs).2.1
  rw [htext] at hwords
  exact ⟨hlength, hs, htext, hwords⟩

end Lox