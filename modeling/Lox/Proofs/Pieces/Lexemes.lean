/-
# The texts of pieces

What the text of a piece can be, said for each role by itself: a table for the
operators, the keywords, and a pattern for every other kind of token, for
comments and for the rest. The first piece of a source has a text of its role,
and a text of a role, cut alone, is one piece with that role; so no text has
two roles.

Key definitions: `operators`, `Lexeme`, `Piece.Spells`.
Key theorems: `Piece.first_spells`, `Piece.first_of_spells`, `Piece.Spells.unique`.
-/
import Mathlib
import Lox.Piece

namespace Lox

/-- The symbols that are no words, and how they are written. -/
def operators : List (List Char × Symbol) :=
  [(['('], .leftParen), ([')'], .rightParen), (['\x7b'], .leftBrace), (['\x7d'], .rightBrace),
    ([','], .comma), (['.'], .dot), (['-'], .minus), (['+'], .plus), ([';'], .semicolon),
    (['/'], .slash), (['*'], .star), (['!'], .bang), (['!', '='], .bangEqual), (['='], .equal),
    (['=', '='], .equalEqual), (['>'], .greater), (['>', '='], .greaterEqual), (['<'], .less),
    (['<', '='], .lessEqual)]

/-- The texts of the tokens of each kind. -/
inductive Lexeme : List Char → Kind → Prop
  | operator {text : List Char} {s : Symbol} (h : (text, s) ∈ operators) : Lexeme text (.symbol s)
  | keyword {word : String} {s : Symbol} (h : (word, s) ∈ keywords) :
      Lexeme word.toList (.symbol s)
  | identifier {c : Char} {more : List Char} (hc : Piece.startsWord c = true)
      (hm : ∀ d ∈ more, Piece.continuesWord d = true)
      (hk : ∀ s, (String.ofList (c :: more), s) ∉ keywords) :
      Lexeme (c :: more) (.identifier (String.ofList (c :: more)))
  | string {contents : List Char} (h : Piece.quote ∉ contents) :
      Lexeme (Piece.quote :: contents ++ [Piece.quote]) (.string (String.ofList contents))
  | whole {c : Char} {digits : List Char} (hc : c.isDigit = true)
      (hd : ∀ d ∈ digits, d.isDigit = true) :
      Lexeme (c :: digits) (.number (Numeral.read (c :: digits) []))
  | fraction {c d : Char} {digits part : List Char} (hc : c.isDigit = true)
      (hw : ∀ e ∈ digits, e.isDigit = true) (hd : d.isDigit = true)
      (hp : ∀ e ∈ part, e.isDigit = true) :
      Lexeme (c :: digits ++ '.' :: d :: part) (.number (Numeral.read (c :: digits) (d :: part)))

namespace Piece

/-- The texts of the pieces of each role. -/
inductive Spells : List Char → Role → Prop
  | token {text : List Char} {kind : Kind} (h : Lexeme text kind) : Spells text (.token kind)
  | blank {c : Char} (h : isBlank c = true) : Spells [c] .blank
  | comment {more : List Char} (h : '\n' ∉ more) : Spells ('/' :: '/' :: more) .comment
  /-- A character that is no blank and starts no token. -/
  | unexpected {c : Char} (hb : isBlank c = false) (h : ∀ more kind, ¬ Lexeme (c :: more) kind) :
      Spells [c] .unexpected
  | unterminated {more : List Char} (h : quote ∉ more) : Spells (quote :: more) .unterminated

/-! ### Which piece a character starts -/

section Heads

variable {c : Char} (rest : List Char)

theorem first_quote : first quote rest = string rest := if_pos rfl

theorem first_of_isDigit (h : c.isDigit = true) : first c rest = number c rest := by
  have hq : c ≠ quote := by
    rintro rfl
    exact absurd h (by decide)
  rw [first, if_neg hq, if_pos h]

theorem not_isDigit_of_startsWord (h : startsWord c = true) : c.isDigit = false := by
  by_cases hu : c = '_'
  · subst hu
    rfl
  · simp only [startsWord, Char.isAlpha, Char.isUpper, Char.isLower, Char.isDigit] at h ⊢
    grind

theorem first_of_startsWord (h : startsWord c = true) : first c rest = word c rest := by
  have hq : c ≠ quote := by
    rintro rfl
    exact absurd h (by decide)
  have hd : ¬ c.isDigit = true := by simp [not_isDigit_of_startsWord h]
  rw [first, if_neg hq, if_neg hd, if_pos h]

theorem first_of_isBlank (h : isBlank c = true) : first c rest = (⟨[c], .blank⟩, rest) := by
  have hc : ((c = ' ' ∨ c = '\r') ∨ c = '\t') ∨ c = '\n' := by simpa [isBlank] using h
  rcases hc with ((rfl | rfl) | rfl) | rfl <;> rfl

end Heads

/-! ### A text of a role is one piece -/

/-- Cut alone, the text is one piece with the role. -/
def IsOne (text : List Char) (role : Role) : Prop :=
  ∃ c more, text = c :: more ∧ first c more = (⟨text, role⟩, [])

theorem isOne_operator : ∀ p ∈ operators, IsOne p.1 (.token (.symbol p.2)) := by
  simp only [operators, List.forall_mem_cons, List.not_mem_nil, false_implies, implies_true,
    and_true]
  and_intros
  all_goals exact ⟨_, _, rfl, rfl⟩

theorem isOne_word {c : Char} {more : List Char} (hc : startsWord c = true)
    (hm : ∀ d ∈ more, continuesWord d = true) :
    IsOne (c :: more) (.token (Kind.ofWord (String.ofList (c :: more)))) := by
  have ht : more.takeWhile continuesWord = more := List.takeWhile_eq_self_iff.mpr hm
  have hd : more.dropWhile continuesWord = [] := List.dropWhile_eq_nil_iff.mpr hm
  exact ⟨c, more, rfl, by rw [first_of_startsWord more hc, word, ht, hd]⟩

theorem keywords_spelled : ∀ p ∈ keywords, p.1.toList.head?.any startsWord = true ∧
    p.1.toList.tail.all continuesWord = true ∧ keywords.lookup p.1 = some p.2 := by
  decide

theorem ofWord_of_mem {text : String} {s : Symbol} (h : (text, s) ∈ keywords) :
    Kind.ofWord text = .symbol s := by
  obtain ⟨-, -, hl⟩ := keywords_spelled _ h
  simp [Kind.ofWord, hl]

theorem ofWord_of_not_mem {text : String} (h : ∀ s, (text, s) ∉ keywords) :
    Kind.ofWord text = .identifier text := by
  have hl : keywords.lookup text = none := by
    rw [List.lookup_eq_none_iff]
    intro p hp
    have hne : text ≠ p.1 := by
      rintro rfl
      exact h p.2 hp
    simpa using hne
  simp [Kind.ofWord, hl]

/-- A word is a keyword or an identifier. -/
theorem lexeme_word {c : Char} {more : List Char} (hc : startsWord c = true)
    (hm : ∀ d ∈ more, continuesWord d = true) :
    Lexeme (c :: more) (Kind.ofWord (String.ofList (c :: more))) := by
  by_cases hk : ∃ s, (String.ofList (c :: more), s) ∈ keywords
  · obtain ⟨s, hs⟩ := hk
    have hword := Lexeme.keyword hs
    rw [String.toList_ofList] at hword
    rw [ofWord_of_mem hs]
    exact hword
  · have hn : ∀ s, (String.ofList (c :: more), s) ∉ keywords := fun s hs => hk ⟨s, hs⟩
    rw [ofWord_of_not_mem hn]
    exact .identifier hc hm hn

theorem isOne_keyword {text : String} {s : Symbol} (h : (text, s) ∈ keywords) :
    IsOne text.toList (.token (.symbol s)) := by
  obtain ⟨hc, hm, -⟩ := keywords_spelled _ h
  cases ht : text.toList with
  | nil => simp [ht] at hc
  | cons c more =>
    have hw : String.ofList (c :: more) = text := by rw [← ht, String.ofList_toList]
    have hc : startsWord c = true := by simpa [ht] using hc
    have hm : ∀ d ∈ more, continuesWord d = true := by simpa [ht] using hm
    have hone := isOne_word hc hm
    rwa [hw, ofWord_of_mem h] at hone

theorem forall_ne_of_not_mem {x : Char} {text : List Char} (h : x ∉ text) :
    ∀ d ∈ text, decide (d ≠ x) = true := by
  intro d hd
  have hne : d ≠ x := by
    rintro rfl
    exact h hd
  simpa using hne

theorem isOne_string {contents : List Char} (h : quote ∉ contents) :
    IsOne (quote :: contents ++ [quote]) (.token (.string (String.ofList contents))) := by
  have hp := forall_ne_of_not_mem h
  refine ⟨quote, contents ++ [quote], rfl, ?_⟩
  rw [first_quote, string, List.dropWhile_append_of_pos hp, List.takeWhile_append_of_pos hp]
  simp

theorem takeWhile_isDigit {digits : List Char} (h : ∀ d ∈ digits, d.isDigit = true) :
    digits.takeWhile Char.isDigit = digits ∧ digits.dropWhile Char.isDigit = [] :=
  ⟨List.takeWhile_eq_self_iff.mpr h, List.dropWhile_eq_nil_iff.mpr h⟩

theorem isOne_whole {c : Char} {digits : List Char} (hc : c.isDigit = true)
    (hd : ∀ d ∈ digits, d.isDigit = true) :
    IsOne (c :: digits) (.token (.number (Numeral.read (c :: digits) []))) := by
  obtain ⟨htake, hdrop⟩ := takeWhile_isDigit hd
  exact ⟨c, digits, rfl, by rw [first_of_isDigit digits hc, number, htake, hdrop]⟩

theorem isOne_fraction {c d : Char} {digits part : List Char} (hc : c.isDigit = true)
    (hw : ∀ e ∈ digits, e.isDigit = true) (hd : d.isDigit = true)
    (hp : ∀ e ∈ part, e.isDigit = true) :
    IsOne (c :: digits ++ '.' :: d :: part)
      (.token (.number (Numeral.read (c :: digits) (d :: part)))) := by
  have hpart : ∀ e ∈ d :: part, e.isDigit = true := List.forall_mem_cons.mpr ⟨hd, hp⟩
  obtain ⟨htake, hdrop⟩ := takeWhile_isDigit hpart
  have hpoint : ('.' :: d :: part).takeWhile Char.isDigit = [] := rfl
  have hpoint' : ('.' :: d :: part).dropWhile Char.isDigit = '.' :: d :: part := rfl
  refine ⟨c, digits ++ '.' :: d :: part, rfl, ?_⟩
  rw [first_of_isDigit _ hc, number, List.takeWhile_append_of_pos hw,
    List.dropWhile_append_of_pos hw, hpoint, hpoint', List.append_nil]
  simp only [htake, hdrop]

theorem isOne_lexeme {text : List Char} {kind : Kind} (h : Lexeme text kind) :
    IsOne text (.token kind) := by
  cases h with
  | operator h => exact isOne_operator _ h
  | keyword h => exact isOne_keyword h
  | identifier hc hm hk =>
    rw [← ofWord_of_not_mem hk]
    exact isOne_word hc hm
  | string h => exact isOne_string h
  | whole hc hd => exact isOne_whole hc hd
  | fraction hc hw hd hp => exact isOne_fraction hc hw hd hp

theorem isOne_comment {more : List Char} (h : '\n' ∉ more) : IsOne ('/' :: '/' :: more) .comment := by
  have hp := forall_ne_of_not_mem h
  refine ⟨'/', '/' :: more, rfl, ?_⟩
  show slash ('/' :: more) = _
  rw [slash, List.takeWhile_eq_self_iff.mpr hp, List.dropWhile_eq_nil_iff.mpr hp]

theorem isOne_unterminated {more : List Char} (h : quote ∉ more) :
    IsOne (quote :: more) .unterminated := by
  have hp := forall_ne_of_not_mem h
  exact ⟨quote, more, rfl, by rw [first_quote, string, List.dropWhile_eq_nil_iff.mpr hp]⟩

theorem ofChar?_mem_operators {c : Char} {s : Symbol} (h : Symbol.ofChar? c = some s) :
    ([c], s) ∈ operators := by
  unfold Symbol.ofChar? at h
  split at h <;> cases h <;> decide

/-- A character that starts nothing else stands alone, whatever follows. -/
theorem first_unexpected {c : Char} (hq : c ≠ quote) (hd : ¬ c.isDigit = true)
    (hw : ¬ startsWord c = true) (hb : ¬ isBlank c = true) (hs : c ≠ '/')
    (ho : Symbol.ofChar? c = none) (rest : List Char) :
    first c rest = (⟨[c], .unexpected⟩, rest) := by
  simp [first, hq, hd, hw, hb, hs, ho]

theorem isOne_unexpected {c : Char} (hb : isBlank c = false)
    (h : ∀ more kind, ¬ Lexeme (c :: more) kind) : IsOne [c] .unexpected := by
  have hq : c ≠ quote := by
    rintro rfl
    have hstring : Lexeme (quote :: ([] ++ [quote])) (.string (String.ofList [])) :=
      .string List.not_mem_nil
    exact h _ _ hstring
  have hd : ¬ c.isDigit = true := fun hd => h [] _ (.whole hd (by simp))
  have hw : ¬ startsWord c = true := fun hw => h [] _ (lexeme_word hw (by simp))
  have ho : Symbol.ofChar? c = none := by
    cases ho : Symbol.ofChar? c with
    | none => rfl
    | some s => exact (h [] _ (.operator (ofChar?_mem_operators ho))).elim
  have hs : c ≠ '/' := by
    rintro rfl
    cases ho
  exact ⟨c, [], rfl, first_unexpected hq hd hw (by simp [hb]) hs ho []⟩

/-- **A text of a role, cut alone, is one piece with that role.** -/
theorem first_of_spells {text : List Char} {role : Role} (h : Spells text role) :
    ∃ c more, text = c :: more ∧ first c more = (⟨text, role⟩, []) := by
  cases h with
  | token h => exact isOne_lexeme h
  | blank h => exact ⟨_, [], rfl, first_of_isBlank [] h⟩
  | comment h => exact isOne_comment h
  | unexpected hb h => exact isOne_unexpected hb h
  | unterminated h => exact isOne_unterminated h

/-- A text has at most one role. -/
theorem Spells.unique {text : List Char} {role role' : Role} (h : Spells text role)
    (h' : Spells text role') : role = role' := by
  obtain ⟨c, more, rfl, hf⟩ := first_of_spells h
  obtain ⟨c', more', he, hf'⟩ := first_of_spells h'
  cases he
  have hp := congrArg (fun cut => cut.1.role) (hf.symm.trans hf')
  exact hp

/-! ### The first piece has a text of its role -/

section First

variable (c : Char) (rest : List Char)

theorem not_mem_takeWhile_ne (x : Char) : x ∉ rest.takeWhile (· ≠ x) := by
  intro h
  simpa using List.mem_takeWhile_imp h

theorem string_spells : Spells (string rest).1.text (string rest).1.role := by
  unfold string
  split
  · rename_i h
    refine .unterminated fun hq => ?_
    have hne := List.dropWhile_eq_nil_iff.mp h quote hq
    simp at hne
  · exact .token (.string (not_mem_takeWhile_ne rest quote))

theorem forall_isDigit_takeWhile : ∀ d ∈ rest.takeWhile Char.isDigit, d.isDigit = true :=
  fun _ => List.mem_takeWhile_imp

theorem number_spells (h : c.isDigit = true) :
    Spells (number c rest).1.text (number c rest).1.role := by
  have hw := forall_isDigit_takeWhile rest
  have hwhole := Spells.token (.whole h hw)
  unfold number
  split
  · rename_i after ha
    split
    · exact hwhole
    · rename_i part hne
      cases hpart : after.takeWhile Char.isDigit with
      | nil => exact (hne hpart).elim
      | cons d part =>
        have hp : ∀ e ∈ d :: part, e.isDigit = true := by
          rw [← hpart]
          exact forall_isDigit_takeWhile after
        exact .token (.fraction h hw (hp d (by simp)) fun e he => hp e (by simp [he]))
  · exact hwhole

theorem word_spells (h : startsWord c = true) : Spells (word c rest).1.text (word c rest).1.role := by
  have hm : ∀ d ∈ rest.takeWhile continuesWord, continuesWord d = true :=
    fun _ => List.mem_takeWhile_imp
  exact .token (lexeme_word h hm)

theorem withEqual?_mem_operators {s joined : Symbol} (hs : Symbol.ofChar? c = some s)
    (hj : s.withEqual? = some joined) : ([c, '='], joined) ∈ operators := by
  unfold Symbol.ofChar? at hs
  split at hs <;> cases hs <;> cases hj <;> decide

theorem operator_spells {s : Symbol} (h : Symbol.ofChar? c = some s) :
    Spells (operator s c rest).1.text (operator s c rest).1.role := by
  unfold operator
  split
  · rename_i hj
    exact .token (.operator (withEqual?_mem_operators c h hj))
  · exact .token (.operator (ofChar?_mem_operators h))

theorem slash_spells : Spells (slash rest).1.text (slash rest).1.role := by
  unfold slash
  split
  · exact .comment (not_mem_takeWhile_ne _ _)
  · show Spells ['/'] (.token (.symbol .slash))
    exact .token (.operator (by decide))

/-- **The first piece of a source has a text of its role.** -/
theorem first_spells : Spells (first c rest).1.text (first c rest).1.role := by
  by_cases hq : c = quote
  · subst hq
    exact string_spells rest
  by_cases hd : c.isDigit = true
  · rw [first_of_isDigit rest hd]
    exact number_spells c rest hd
  by_cases hw : startsWord c = true
  · rw [first_of_startsWord rest hw]
    exact word_spells c rest hw
  by_cases hb : isBlank c = true
  · rw [first_of_isBlank rest hb]
    exact .blank hb
  by_cases hs : c = '/'
  · subst hs
    exact slash_spells rest
  cases ho : Symbol.ofChar? c with
  | some s =>
    have hf : first c rest = operator s c rest := by simp [first, hq, hd, hw, hb, hs, ho]
    rw [hf]
    exact operator_spells c rest ho
  | none =>
    rw [first_unexpected hq hd hw hb hs ho rest]
    refine .unexpected (by simpa using hb) fun more kind h => ?_
    obtain ⟨c', more', he, hf⟩ := isOne_lexeme h
    cases he
    rw [first_unexpected hq hd hw hb hs ho more] at hf
    simp at hf

end First

end Piece
end Lox
