/-
# Strings are carried through

A string between quotation marks is one token whatever its text is, as long as
there is no quotation mark in it, and the token has just this text. So a
source that prints strings joined by plus signs writes these strings, one
after the other, and nothing else comes of it.

Key definitions: `quoted`, `Piece.addend`, `Piece.printSum`.
Key theorems: `Piece.cut_quoted`, `Derivation.exists_sum`, `printed_strings_are_unchanged`.
-/
import Lox.Proofs.Printing
import Lox.Proofs.Scopes.Lookups

namespace Lox

/-- The literal of a string. -/
def quoted (s : String) : String := "\x22" ++ s ++ "\x22"

theorem quoted_toList (s : String) :
    (quoted s).toList = Piece.quote :: s.toList ++ [Piece.quote] := by
  unfold quoted
  rw [String.toList_append, String.toList_append]
  rfl

/-- The literals of the strings, joined by plus signs. -/
theorem sum_toList (s : String) : ∀ rest : List String,
    (" + ".intercalate ((s :: rest).map quoted)).toList =
      (quoted s).toList ++ rest.flatMap fun t => " + ".toList ++ (quoted t).toList
  | [] => by
    rw [List.map_singleton, String.intercalate_singleton, List.flatMap_nil, List.append_nil]
  | t :: rest => by
    have ih := sum_toList t rest
    rw [List.map_cons] at ih
    rw [List.map_cons, List.map_cons, String.intercalate_cons_cons, String.toList_append,
      String.toList_append, ih, List.flatMap_cons, List.append_assoc, List.append_assoc]

/-! ### How the literals are cut -/

namespace Piece

/-- The pieces of a plus sign between blanks and a literal. -/
def addend (s : String) : List Piece :=
  [⟨[' '], .blank⟩, ⟨['+'], .token (.symbol .plus)⟩, ⟨[' '], .blank⟩,
    ⟨(quoted s).toList, .token (.string s)⟩]

/-- A literal is one piece, whatever follows. -/
theorem cut_quoted {s : String} (h : quote ∉ s.toList) (more : List Char) :
    cut ((quoted s).toList ++ more) = ⟨(quoted s).toList, .token (.string s)⟩ :: cut more := by
  obtain ⟨c, rest, he, hf⟩ := isOne_string h
  rw [← quoted_toList] at he hf
  have hc : c = quote := by
    rw [quoted_toList] at he
    exact (List.cons.inj he).1.symm
  subst hc
  rw [first_quote] at hf
  have hstring : string (rest ++ more) = ((string rest).1, (string rest).2 ++ more) :=
    string_append rest more (by rw [hf]; exact fun h => by cases h)
  have hcut : cut (quote :: (rest ++ more)) =
      ⟨(quoted s).toList, .token (.string s)⟩ :: cut more := by
    rw [cut_cons, first_quote, hstring, hf, String.ofList_toList, List.nil_append]
  rw [← hcut, he, List.cons_append]

theorem cut_addend {s : String} (h : quote ∉ s.toList) (more : List Char) :
    cut (" + ".toList ++ (quoted s).toList ++ more) = addend s ++ cut more := by
  have hplus : Lexeme ['+'] (.symbol .plus) := .operator (by decide)
  have hblank : ∀ more, cut (' ' :: more) = ⟨[' '], .blank⟩ :: cut more := cut_blank rfl
  have hsign := cut_lexeme hplus (b := ' ') rfl ((quoted s).toList ++ more)
  show cut (' ' :: (['+'] ++ ' ' :: ((quoted s).toList ++ more))) = _
  rw [hblank, hsign, hblank, cut_quoted h]
  rfl

theorem cut_addends (more : List Char) : ∀ {strings : List String},
    (∀ s ∈ strings, quote ∉ s.toList) →
    cut ((strings.flatMap fun s => " + ".toList ++ (quoted s).toList) ++ more) =
      strings.flatMap addend ++ cut more
  | [], _ => rfl
  | s :: rest, h => by
    obtain ⟨hs, hr⟩ := List.forall_mem_cons.mp h
    rw [List.flatMap_cons, List.append_assoc, cut_addend hs, cut_addends more hr,
      List.flatMap_cons, List.append_assoc]

/-- The pieces of a source that prints strings joined. -/
def printSum (s : String) (rest : List String) : List Piece :=
  ⟨"print".toList, .token (.symbol .printWord)⟩ :: ⟨[' '], .blank⟩ ::
    ⟨(quoted s).toList, .token (.string s)⟩ ::
      (rest.flatMap addend ++ [⟨[';'], .token (.symbol .semicolon)⟩])

theorem cut_print_sum {s : String} {rest : List String} (hs : quote ∉ s.toList)
    (hr : ∀ t ∈ rest, quote ∉ t.toList) :
    cut ("print " ++ " + ".intercalate ((s :: rest).map quoted) ++ ";").toList =
      printSum s rest := by
  have hsemicolon : Lexeme ";".toList (.symbol .semicolon) := .operator (by decide)
  rw [String.toList_append, String.toList_append, sum_toList, List.append_assoc, List.append_assoc,
    cut_print, cut_quoted hs, cut_addends _ hr, cut_lexeme_alone hsemicolon]
  rfl

theorem faultless_printSum (s : String) (rest : List String) : Faultless (printSum s rest) := by
  have haddend : ∀ t, Faultless (addend t) := fun t => by simp [Faultless, addend]
  intro p hp
  simp only [printSum, List.mem_cons, List.mem_append, List.mem_flatMap, List.not_mem_nil,
    or_false] at hp
  rcases hp with rfl | rfl | rfl | ⟨t, -, hp⟩ | rfl
  case inr.inr.inr.inl => exact haddend t p hp
  all_goals simp

/-- The kind of a token. -/
def kind? (p : Piece) : Option Kind := p.word?.map Prod.fst

theorem kinds_body (line : Nat) (pieces : List Piece) :
    (Scan.body line pieces).map Token.kind = pieces.filterMap kind? := by
  have hm := congrArg (List.map Prod.fst) (map_body line pieces)
  rw [List.map_map, List.map_filterMap] at hm
  exact hm

theorem kinds_addends : ∀ strings : List String,
    (strings.flatMap addend).filterMap kind? =
      strings.flatMap fun s => [.symbol .plus, .string s]
  | [] => rfl
  | s :: rest => by
    rw [List.flatMap_cons, List.filterMap_append, kinds_addends rest]
    rfl

theorem kinds_printSum (s : String) (rest : List String) :
    (printSum s rest).filterMap kind? = .symbol .printWord :: .string s ::
      (rest.flatMap (fun t => [.symbol .plus, .string t]) ++ [.symbol .semicolon]) := by
  have hfirst : (printSum s rest).filterMap kind? = .symbol .printWord :: .string s ::
      List.filterMap kind? (rest.flatMap addend ++ [⟨[';'], .token (.symbol .semicolon)⟩]) := rfl
  rw [hfirst, List.filterMap_append, kinds_addends]
  rfl

end Piece

/-! ### Sums of literals -/

namespace Derivation

/-- An operation on the levels of sums and products is an expression. -/
def ofSum (d : Derivation (.operation [.term, .factor])) : Derivation .expression :=
  .operation (.tighter (.tighter (.tighter (.tighter d))))

/-- Literals can be added to a sum, one after the other; so their strings are joined to its
value. -/
theorem exists_sum : ∀ (strings : List String) (d : Derivation (.operation [.term, .factor]))
    {tokens : List Token},
    tokens.map Token.kind = strings.flatMap (fun s => [.symbol .plus, .string s]) →
    ∃ sum : Derivation (.operation [.term, .factor]), sum.tokens = d.tokens ++ tokens ∧
      ∀ {env : Environment} {text : String}, evaluate d.tree env = .ok (.string text) env →
        evaluate sum.tree env = .ok (.string (text ++ String.join strings)) env
  | [], d, tokens, h => by
    rw [List.flatMap_nil, List.map_eq_nil_iff] at h
    subst h
    refine ⟨d, (List.append_nil _).symm, fun he => ?_⟩
    rw [String.join_nil, String.append_empty]
    exact he
  | s :: rest, d, tokens, h => by
    rw [List.flatMap_cons] at h
    obtain ⟨plus, more, rfl, hplus, h⟩ := List.map_eq_cons_iff.mp h
    obtain ⟨literal, more, rfl, hliteral, h⟩ := List.map_eq_cons_iff.mp h
    have hdenotes : literal.kind.Denotes (.string s) := by
      rw [hliteral]
      exact .string s
    have hlevel : ∃ symbol, plus.kind = .symbol symbol ∧ symbol.level? = some .term :=
      ⟨.plus, hplus, rfl⟩
    obtain ⟨sum, htokens, hvalue⟩ := exists_sum rest
      (.join d ⟨plus, hlevel⟩ (.tighter (.operand (.literal literal (.string s) hdenotes)))) h
    refine ⟨sum, by rw [htokens]; simp [tokens], fun {env text} he => ?_⟩
    have happly : applyBinary plus (.string text) (.string s) = .ok (.string (text ++ s)) := by
      rw [applyBinary, hplus]
    have hjoin : evaluate (.binary d.tree plus (.literal (.string s))) env =
        .ok (.string (text ++ s)) env := by
      rw [evaluate_binary_of_ok he, evaluate, pure_bind, happly]
      rfl
    rw [String.join_cons, ← String.append_assoc]
    exact hvalue hjoin

end Derivation

/-- What a source that prints strings joined is read as. -/
theorem read_print_sum {s : String} {rest : List String} (hs : Piece.quote ∉ s.toList)
    (hr : ∀ t ∈ rest, Piece.quote ∉ t.toList) {source : String}
    (h : source = "print " ++ " + ".intercalate ((s :: rest).map quoted) ++ ";") :
    Correct source ∧ ∃ e, Session.program source = [some (.print e)] ∧ ∀ env,
      evaluate e env = .ok (.string (String.join (s :: rest))) env := by
  have hcut := Piece.cut_print_sum hs hr
  rw [← h] at hcut
  have hkinds : (tokens source).map Token.kind = (Piece.printSum s rest).filterMap Piece.kind? := by
    rw [tokens, hcut, Piece.kinds_body]
  rw [Piece.kinds_printSum] at hkinds
  obtain ⟨word, more, htokens, hword, hkinds⟩ := List.map_eq_cons_iff.mp hkinds
  obtain ⟨literal, more, rfl, hliteral, hkinds⟩ := List.map_eq_cons_iff.mp hkinds
  obtain ⟨addends, last, rfl, haddends, hlast⟩ := List.map_eq_append_iff.mp hkinds
  obtain ⟨semicolon, more, rfl, hsemicolon, hmore⟩ := List.map_eq_cons_iff.mp hlast
  obtain rfl := List.map_eq_nil_iff.mp hmore
  have hdenotes : literal.kind.Denotes (.string s) := by
    rw [hliteral]
    exact .string s
  obtain ⟨sum, hsum, hvalue⟩ := Derivation.exists_sum rest
    (.tighter (.tighter (.operand (.literal literal (.string s) hdenotes)))) haddends
  let d : ProgramDerivation :=
    .statement (.print ⟨word, hword⟩ sum.ofSum ⟨semicolon, hsemicolon⟩) .nil
  have hd : d.tokens = tokens source := by
    show word :: (sum.tokens ++ [semicolon]) ++ [] = _
    rw [hsum, htokens]
    simp [Derivation.tokens]
  have hread : Grammar.program (tokens source) = ([some (.print sum.tree)], []) := by
    rw [← hd]
    exact d.program
  refine ⟨(correct_iff source).mpr ⟨?_, by rw [hread]⟩, sum.tree, by rw [program_eq, hread],
    fun env => ?_⟩
  · rw [hcut]
    exact Piece.faultless_printSum s rest
  · rw [String.join_cons]
    exact hvalue rfl

/-- **Strings are carried through.** A source that prints literals joined by plus signs writes the
strings in them one after the other, whatever characters but quotation marks there are in them, and
a newline; it leaves the variables and the record as they were. -/
theorem printed_strings_are_unchanged (strings : List String) (hne : strings ≠ [])
    (hq : ∀ s ∈ strings, '\x22' ∉ s.toList) (rounds : Nat) (session : Session)
    (ho : session.options = {}) (hn : session.state.sink.limit = none)
    (hf : session.state.sink.flushRefusal = none) :
    Session.run rounds ("print " ++ " + ".intercalate (strings.map quoted) ++ ";") session =
      .ok .success ⟨{}, session.state.holding (session.state.sink.accepted ++
        (String.join strings ++ "\n").toUTF8), {}⟩ := by
  obtain ⟨s, rest, rfl⟩ := List.exists_cons_of_ne_nil hne
  obtain ⟨hs, hr⟩ := List.forall_mem_cons.mp hq
  obtain ⟨hcorrect, e, hprogram, hvalue⟩ := read_print_sum hs hr rfl
  exact Session.run_print ho hn hf hcorrect hprogram (hvalue _)

/-- Strings that look like a comment, an operator and an end of line. -/
theorem printed_strings_are_unchanged_of_layout :
    let strings := ["é // b", " + ", "", "\n;"]
    Session.run 0 ("print " ++ " + ".intercalate (strings.map quoted) ++ ";") ({} : Session) =
      .ok .success ⟨{}, ⟨{}, { accepted := "é // b + \n;\n".toUTF8 }⟩, {}⟩ := by
  intro strings
  have hrun := printed_strings_are_unchanged strings (by decide) (by decide) 0 {} rfl rfl rfl
  have hjoin : String.join strings ++ "\n" = "é // b + \n;\n" := by decide
  rw [hjoin] at hrun
  exact hrun

end Lox
