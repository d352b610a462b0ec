/-
# An outline determines its tree

All the words of the outline of a program are words, so its text determines
its forms, and they determine the trees. A string could have anything in it,
and an infinite number is written like a name; without these, two sources with
one outline are read as the same program, but for the lines of the tokens.

Key definitions: `Legible`.
Key theorems: `Expression.clear_form`, `Statement.clear_form`, `Legible.shows`,
`outline_determines_tree`.
-/
import Lox.Proofs.Outlines.Decoded

namespace Lox

/-! ### The words of an outline -/

theorem Form.isWord_of_all {w : String} (hne : w ≠ "") (h : w.toList.all (!breaks ·) = true) :
    IsWord w := ⟨hne, forall_of_all h⟩

theorem Value.isWord {v : Value} (h : v.MadeOf Token.Shows) : Form.IsWord v.text := by
  obtain ⟨kind, hlexeme, hv, hs⟩ := Value.exists_lexeme h
  refine hlexeme.isWord hs ?_ ?_
  · rintro rfl
    cases hv
  · rintro rfl
    cases hv

namespace Token.Shows

variable {t : Token}

theorem isWord_of_isName (h : t.Shows) (hn : t.IsName) : Form.IsWord t.lexeme := by
  obtain ⟨_, hk⟩ := hn
  exact h.isWord (by rw [hk]; exact nofun) (by rw [hk]; exact nofun)

theorem isWord_of_mem (h : t.Shows) {ss : List Symbol} (hs : ∃ s ∈ ss, t.kind = .symbol s)
    (hl : .leftParen ∉ ss) (hr : .rightParen ∉ ss) : Form.IsWord t.lexeme := by
  obtain ⟨s, hs, hk⟩ := hs
  refine h.isWord ?_ ?_
  · rw [hk]
    rintro ⟨⟩
    exact hl hs
  · rw [hk]
    rintro ⟨⟩
    exact hr hs

theorem isWord_of_kind (h : t.Shows) {a b : Symbol} (hk : t.kind = .symbol a ∨ t.kind = .symbol b)
    (hl : .leftParen ∉ [a, b]) (hr : .rightParen ∉ [a, b]) : Form.IsWord t.lexeme := by
  refine h.isWord_of_mem ?_ hl hr
  rcases hk with hk | hk
  · exact ⟨a, by simp, hk⟩
  · exact ⟨b, by simp, hk⟩

end Token.Shows

theorem Expression.clear_form : ∀ e : Expression, e.WellFormed → e.MadeOf Token.Shows → e.form.Clear
  | .literal _, _, hm => Value.isWord hm
  | .group inner, hw, hm => ⟨Form.isWord_of_all (by decide) rfl, inner.clear_form hw hm, trivial⟩
  | .name _, hn, hm => hm.isWord_of_isName hn
  | .assign _ value, ⟨hn, hw⟩, ⟨ht, hm⟩ =>
    ⟨Form.isWord_of_all (by decide) rfl, ht.isWord_of_isName hn, value.clear_form hw hm, trivial⟩
  | .unary _ operand, ⟨hk, hw⟩, ⟨ho, hm⟩ =>
    ⟨ho.isWord_of_kind hk (by decide) (by decide), operand.clear_form hw hm, trivial⟩
  | .binary left _ right, ⟨hl, hk, hr⟩, ⟨hml, ho, hmr⟩ =>
    ⟨ho.isWord_of_mem hk (by decide) (by decide), left.clear_form hl hml, right.clear_form hr hmr,
      trivial⟩
  | .logical left _ right, ⟨hl, hk, hr⟩, ⟨hml, ho, hmr⟩ =>
    ⟨ho.isWord_of_kind hk (by decide) (by decide), left.clear_form hl hml, right.clear_form hr hmr,
      trivial⟩

mutual

theorem Statement.clear_form : ∀ s : Statement, s.WellFormed → s.MadeOf Token.Shows → s.form.Clear
  | .print value, hw, hm =>
    ⟨Form.isWord_of_all (by decide) rfl, value.clear_form hw hm, trivial⟩
  | .evaluate e, hw, hm => ⟨Form.isWord_of_all (by decide) rfl, e.clear_form hw hm, trivial⟩
  | .declare name none, hn, hm =>
    ⟨Form.isWord_of_all (by decide) rfl, Token.Shows.isWord_of_isName hm hn, trivial⟩
  | .declare name (some e), ⟨hn, hw⟩, ⟨ht, hm⟩ =>
    ⟨Form.isWord_of_all (by decide) rfl, ht.isWord_of_isName hn, e.clear_form hw hm, trivial⟩
  | .block body, hw, hm =>
    ⟨Form.isWord_of_all (by decide) rfl, Statement.clear_forms body hw hm⟩
  | .branch condition yes none, ⟨hc, hy, _⟩, ⟨hmc, hmy⟩ =>
    ⟨Form.isWord_of_all (by decide) rfl, condition.clear_form hc hmc, yes.clear_form hy hmy, trivial⟩
  | .branch condition yes (some no), ⟨hc, ⟨hy, _⟩, hn, _⟩, ⟨hmc, hmy, hmn⟩ =>
    ⟨Form.isWord_of_all (by decide) rfl, condition.clear_form hc hmc, yes.clear_form hy hmy,
      no.clear_form hn hmn, trivial⟩
  | .loop condition body, ⟨hc, hb, _⟩, ⟨hmc, hmb⟩ =>
    ⟨Form.isWord_of_all (by decide) rfl, condition.clear_form hc hmc, body.clear_form hb hmb, trivial⟩

theorem Statement.clear_forms : ∀ ds : Declarations, Declarations.WellFormed ds →
    Declarations.MadeOf Token.Shows ds → Form.ClearItems (Declarations.forms ds)
  | [], _, _ => trivial
  | none :: rest, hw, hm =>
    ⟨Form.isWord_of_all (by decide) rfl, Statement.clear_forms rest hw hm⟩
  | some s :: rest, ⟨hs, hw⟩, ⟨hms, hm⟩ => ⟨s.clear_form hs hms, Statement.clear_forms rest hw hm⟩

end

theorem Form.ClearItems.forall : ∀ {fs : List Form}, ClearItems fs → ∀ f ∈ fs, f.Clear
  | [], _ => List.forall_mem_nil _
  | _ :: _, h => List.forall_mem_cons.mpr ⟨h.1, ClearItems.forall h.2⟩

/-- Trees that show in their outlines what they are have different outlines, unless they differ in
the lines of their tokens only. -/
theorem moved_eq_of_outline_eq {ds es : Declarations} (hd : Declarations.WellFormed ds)
    (he : Declarations.WellFormed es) (hmd : Declarations.MadeOf Token.Shows ds)
    (hme : Declarations.MadeOf Token.Shows es) (h : outline ds = outline es) :
    Declarations.moved (fun _ => 0) ds = Declarations.moved (fun _ => 0) es := by
  have hclear := (Statement.clear_forms ds hd hmd).forall
  have hclear' := (Statement.clear_forms es he hme).forall
  have hlines : ['\n'].intercalate ((Declarations.forms ds).map Form.text) =
      ['\n'].intercalate ((Declarations.forms es).map Form.text) := by
    rw [← outline_toList, h, outline_toList]
  have hforms := Form.eq_of_lines hclear hclear' hlines
  have hread := Statement.entries?_forms ds hd hmd
  rw [hforms, Statement.entries?_forms es he hme] at hread
  exact (Option.some.inj hread).symm

/-! ### Sources -/

theorem Numeral.toBits_read (whole part : List Char) :
    (read whole part).toBits.toNat ≤ Binary64.infinity := by
  have hbits : bitsOf (.ofDigits whole part) ≤ Binary64.infinity := Nat.min_le_right _ _
  have hnat : (UInt64.ofNat (bitsOf (.ofDigits whole part))).toNat = bitsOf (.ofDigits whole part) :=
    UInt64.toNat_ofNat_of_lt' (hbits.trans_lt (by decide))
  have hsmall : (UInt64.ofNat (bitsOf (.ofDigits whole part))).toNat % Binary64.signBit ≤
      Binary64.infinity := (Nat.mod_le _ _).trans (hnat.trans_le hbits)
  rw [read, Binary64.toBits_ofBits hsmall, hnat]
  exact hbits

theorem Binary64.lt_infinity {x : Float} (h : x.toBits.toNat ≤ infinity) (hx : x.isInf = false) :
    x.toBits.toNat < infinity := by
  refine h.lt_of_ne fun he => ?_
  have hmod : x.toBits.toBitVec.toNat % signBit = infinity := by
    rw [show x.toBits.toBitVec.toNat = infinity from he]
    rfl
  have hinf : x.isInf = (unpacked x.toBits.toBitVec).isInf := rfl
  rw [hinf, unpacked_of_infinity hmod] at hx
  cases hx

theorem Lexeme.toBits_number {text : List Char} {x : Float} (h : Lexeme text (.number x)) :
    x.toBits.toNat ≤ Binary64.infinity := by
  generalize hk : Kind.number x = kind at h
  cases h with
  | whole =>
    cases hk
    exact Numeral.toBits_read _ _
  | fraction =>
    cases hk
    exact Numeral.toBits_read _ _
  | operator | keyword | identifier | string => cases hk

/-- A token of the kind is neither a string nor an infinite number. -/
def Kind.isLegible : Kind → Bool
  | .string _ => false
  | .number x => !x.isInf
  | _ => true

/-- No token of the source is a string or an infinite number. -/
def Legible (source : String) : Prop := ∀ t ∈ (scan source).tokens, t.kind.isLegible = true

instance (source : String) : Decidable (Legible source) :=
  inferInstanceAs (Decidable (∀ t ∈ (scan source).tokens, t.kind.isLegible = true))

theorem Legible.shows {source : String} (h : Legible source) : ∀ t ∈ tokens source, t.Shows := by
  intro t ht
  have hlexeme : Lexeme t.lexeme.toList t.kind := Scan.lexeme_of_mem_body t ht
  have hlegible := h t (by rw [scan_tokens]; exact List.mem_append_left _ ht)
  refine ⟨hlexeme, fun contents hk => ?_, fun x hk => ?_⟩
  · rw [hk] at hlegible
    cases hlegible
  · rw [hk] at hlegible hlexeme
    exact Binary64.lt_infinity hlexeme.toBits_number (by simpa [Kind.isLegible] using hlegible)

/-- **The outline of a program determines it**, but for the lines of its tokens, whether or not
there are errors in its text. -/
theorem outline_determines_tree (source other : String) (h : Legible source) (ho : Legible other)
    (he : outline (Session.program source) = outline (Session.program other)) :
    Declarations.moved (fun _ => 0) (Session.program source) =
      Declarations.moved (fun _ => 0) (Session.program other) := by
  have hw (s : String) : Declarations.WellFormed (Session.program s) := parse_wellFormed _
  have hm (s : String) (hs : Legible s) :
      Declarations.MadeOf Token.Shows (Session.program s) := by
    rw [program_eq]
    exact Grammar.program_madeOf (tokens s) hs.shows
  exact moved_eq_of_outline_eq (hw source) (hw other) (hm source h) (hm other ho) he

/-- A numeral spelled in another way, other lines and another mistake make no other program. -/
theorem outline_determines_tree_of_lines :
    let read (line : Nat) : Declarations :=
      [some (.print (.binary (.literal (.number 1.5)) ⟨.symbol .plus, "+", line⟩
        (.name ⟨.identifier "x", "x", line⟩))), none]
    Session.program "print 1.50 + x; \x7d" = read 1 ∧
      Session.program "print\n1.5 + x;\nvar" = read 2 ∧
      outline (read 1) = "(print (+ 1.5 x))\n<error>" ∧
      Declarations.moved (fun _ => 0) (Session.program "print 1.50 + x; \x7d") =
        Declarations.moved (fun _ => 0) (Session.program "print\n1.5 + x;\nvar") := by
  intro read
  have hone : (scan "print 1.50 + x; \x7d").tokens =
      [⟨.symbol .printWord, "print", 1⟩, ⟨.number 1.5, "1.50", 1⟩, ⟨.symbol .plus, "+", 1⟩,
        ⟨.identifier "x", "x", 1⟩, ⟨.symbol .semicolon, ";", 1⟩, ⟨.symbol .rightBrace, "\x7d", 1⟩,
        ⟨.endOfInput, "", 1⟩] := by decide +kernel
  have hother : (scan "print\n1.5 + x;\nvar").tokens =
      [⟨.symbol .printWord, "print", 1⟩, ⟨.number 1.5, "1.5", 2⟩, ⟨.symbol .plus, "+", 2⟩,
        ⟨.identifier "x", "x", 2⟩, ⟨.symbol .semicolon, ";", 2⟩, ⟨.symbol .varWord, "var", 3⟩,
        ⟨.endOfInput, "", 3⟩] := by decide +kernel
  have hp : Session.program "print 1.50 + x; \x7d" = read 1 := by
    simp only [Session.program, hone, read]
    generalize (1.5 : Float) = x
    cbv
  have hq : Session.program "print\n1.5 + x;\nvar" = read 2 := by
    simp only [Session.program, hother, read]
    generalize (1.5 : Float) = x
    cbv
  have htext (line : Nat) : outline (read line) = "(print (+ 1.5 x))\n<error>" := by
    have hnumber : (Value.number 1.5).text = "1.5" := by decide +kernel
    simp only [read, outline, List.map_cons, List.map_nil, Statement.outline, Expression.outline,
      hnumber]
    rfl
  exact ⟨hp, hq, htext 1, outline_determines_tree _ _ (by decide +kernel) (by decide +kernel)
    (by rw [hp, hq, htext, htext])⟩

end Lox
