/-
# Printed numbers are read back

The text of a finite double without a sign bit is scanned as one number, that
double. The text of one with a sign bit has a minus before the text of its
opposite, so it is no token, but an expression with that value: printed again,
it gives the same text.

Key theorems: `Numeral.lexeme_text`, `Numeral.text_neg`, `scan_number`,
`printed_numbers_read_back`.
-/
import Mathlib
import Lox.Proofs.Numbers.Patterns
import Lox.Proofs.Numbers.Shortest
import Lox.Proofs.Printing

namespace Lox

/-! ### Texts of doubles -/

namespace Numeral

variable {x : Float}

theorem text_of_lt_infinity (h : x.toBits.toNat < Binary64.infinity) :
    text x = String.ofList (shortest x.toBits.toNat).text := by
  have hsign : x.toBits.toNat < Binary64.signBit := h.trans (by decide)
  have hmod : x.toBits.toNat % Binary64.signBit = x.toBits.toNat := Nat.mod_eq_of_lt hsign
  unfold text magnitudeText
  dsimp only
  rw [hmod, if_neg h.le.not_gt, if_pos hsign, if_pos h]

/-- **The text of a finite double without a sign bit is that of a number, the double.** -/
theorem lexeme_text (h : x.toBits.toNat < Binary64.infinity) :
    Lexeme (text x).toList (.number x) := by
  have hmod : x.toBits.toNat % Binary64.signBit ≤ Binary64.infinity :=
    (Nat.mod_le _ _).trans h.le
  have hread : Float.ofBits (UInt64.ofNat (bitsOf (shortest x.toBits.toNat))) = x := by
    rw [bitsOf_shortest h.le, UInt64.ofNat_toNat, Binary64.ofBits_toBits hmod]
  have hlexeme := (shortest x.toBits.toNat).lexeme_text
  rw [hread] at hlexeme
  rw [text_of_lt_infinity h, String.toList_ofList]
  exact hlexeme

theorem text_neg (h : x.toBits.toNat < Binary64.infinity) : text (-x) = "-" ++ text x := by
  have hbits := Binary64.toNat_toBits_neg h.le
  have hsign : x.toBits.toNat < Binary64.signBit := h.trans (by decide)
  have hmod : (x.toBits.toNat + Binary64.signBit) % Binary64.signBit = x.toBits.toNat := by
    rw [Nat.add_mod_right, Nat.mod_eq_of_lt hsign]
  rw [text_of_lt_infinity h]
  unfold text magnitudeText
  dsimp only
  rw [hbits, hmod, if_neg h.le.not_gt, if_neg (Nat.le_add_left _ _).not_gt, Nat.add_sub_cancel,
    if_pos h, ← String.toList_inj]
  simp

/-- A finite double with a sign bit is the opposite of one without. -/
theorem exists_neg (hf : x.isFinite = true) (hs : Binary64.signBit ≤ x.toBits.toNat) :
    ∃ y : Float, y.toBits.toNat < Binary64.infinity ∧ -y = x := by
  have hfinite := (Binary64.isFinite_iff x).mp hf
  have hlt : x.toBits.toNat < 2 * Binary64.signBit := x.toBits.toNat_lt
  have hmod : x.toBits.toNat % Binary64.signBit = x.toBits.toNat - Binary64.signBit := by
    rw [Nat.mod_eq_sub_mod hs, Nat.mod_eq_of_lt (by omega)]
  rw [hmod] at hfinite
  have hbits : (UInt64.ofNat (x.toBits.toNat - Binary64.signBit)).toNat =
      x.toBits.toNat - Binary64.signBit :=
    UInt64.toNat_ofNat_of_lt' ((Nat.sub_le _ _).trans_lt x.toBits.toNat_lt)
  have hy : (Float.ofBits (UInt64.ofNat (x.toBits.toNat - Binary64.signBit))).toBits.toNat =
      x.toBits.toNat - Binary64.signBit := by
    rw [Binary64.toBits_ofBits (by rw [hbits]; exact (Nat.mod_le _ _).trans hfinite.le), hbits]
  refine ⟨_, hy.trans_lt hfinite, Binary64.eq_of_toBits_eq (UInt64.toNat_inj.mp ?_)⟩
  rw [Binary64.toNat_toBits_neg (hy.trans_le hfinite.le), hy, Nat.sub_add_cancel hs]

end Numeral

/-! ### Scans -/

/-- A number is written with digits and a point behind the first. -/
theorem Lexeme.number_text {text : List Char} {x : Float} (h : Lexeme text (.number x)) :
    ∃ c more, text = c :: more ∧ c.isDigit = true ∧ ∀ d ∈ more, d.isDigit = true ∨ d = '.' := by
  generalize hk : Kind.number x = kind at h
  cases h with
  | whole hc hd => exact ⟨_, _, rfl, hc, fun d hm => .inl (hd d hm)⟩
  | fraction hc hw hd hp =>
    refine ⟨_, _, rfl, hc, fun e hm => ?_⟩
    rcases List.mem_append.mp hm with hm | hm
    · exact .inl (hw e hm)
    · rcases List.mem_cons.mp hm with rfl | hm
      · exact .inr rfl
      · rcases List.mem_cons.mp hm with rfl | hm
        · exact .inl hd
        · exact .inl (hp e hm)
  | operator | keyword | identifier | string => cases hk

theorem Lexeme.not_mem_newline {text : List Char} {x : Float} (h : Lexeme text (.number x)) :
    '\n' ∉ text := by
  obtain ⟨c, more, rfl, hc, hm⟩ := h.number_text
  intro hn
  rcases List.mem_cons.mp hn with rfl | hn
  · exact absurd hc (by decide)
  · rcases hm _ hn with hd | hd <;> exact absurd hd (by decide)

namespace Piece

/-- The text of a number ends before what is neither a digit nor a point. -/
theorem cut_number {text : List Char} {x : Float} (h : Lexeme text (.number x)) {b : Char}
    (hd : b.isDigit = false) (hp : b ≠ '.') (more : List Char) :
    cut (text ++ b :: more) = ⟨text, .token (.number x)⟩ :: cut (b :: more) := by
  obtain ⟨c, rest, he, hf⟩ := isOne_lexeme h
  obtain ⟨_, _, rfl, hc, -⟩ := h.number_text
  cases he
  rw [first_of_isDigit rest hc] at hf
  rw [List.cons_append, cut_cons, first_of_isDigit _ hc, number_append c rest more hd hp, hf,
    List.nil_append]

end Piece

/-- A source that is the text of a number is scanned as that number. -/
theorem scan_number {text : String} {x : Float} (h : Lexeme text.toList (.number x)) :
    scan text = ⟨[⟨.number x, text, 1⟩, ⟨.endOfInput, "", 1⟩], []⟩ := by
  rw [scan, Piece.cut_lexeme_alone h, Scan.ofPieces, Scan.ofPieces, Piece.endLine,
    List.count_eq_zero.mpr h.not_mem_newline, String.ofList_toList]

theorem Piece.cut_operand {text : List Char} {x : Float} (h : Lexeme text (.number x)) :
    cut (text ++ [';']) = [⟨text, .token (.number x)⟩, ⟨[';'], .token (.symbol .semicolon)⟩] := by
  have hsemicolon : Lexeme [';'] (.symbol .semicolon) := .operator (by decide)
  rw [cut_number h rfl (by decide), cut_lexeme_alone hsemicolon]

theorem Piece.cut_minus {text : List Char} {x : Float} (h : Lexeme text (.number x)) :
    cut ('-' :: (text ++ [';'])) = [⟨['-'], .token (.symbol .minus)⟩, ⟨text, .token (.number x)⟩,
      ⟨[';'], .token (.symbol .semicolon)⟩] := by
  have hfirst : first '-' (text ++ [';']) = (⟨['-'], .token (.symbol .minus)⟩, text ++ [';']) := rfl
  rw [cut_cons, hfirst, cut_operand h]

theorem scan_print_number {text : String} {x : Float} (h : Lexeme text.toList (.number x)) :
    scan ("print " ++ text ++ ";") =
      ⟨[⟨.symbol .printWord, "print", 1⟩, ⟨.number x, text, 1⟩, ⟨.symbol .semicolon, ";", 1⟩,
        ⟨.endOfInput, "", 1⟩], []⟩ := by
  have hsource : ("print " ++ text ++ ";").toList = "print ".toList ++ (text.toList ++ [';']) := by
    simp
  rw [scan, hsource, Piece.cut_print, Piece.cut_operand h]
  simp only [Scan.ofPieces, Piece.endLine, List.count_eq_zero.mpr h.not_mem_newline,
    String.ofList_toList]
  rfl

theorem scan_print_negative {text : String} {x : Float} (h : Lexeme text.toList (.number x)) :
    scan ("print " ++ ("-" ++ text) ++ ";") =
      ⟨[⟨.symbol .printWord, "print", 1⟩, ⟨.symbol .minus, "-", 1⟩, ⟨.number x, text, 1⟩,
        ⟨.symbol .semicolon, ";", 1⟩, ⟨.endOfInput, "", 1⟩], []⟩ := by
  have hsource : ("print " ++ ("-" ++ text) ++ ";").toList =
      "print ".toList ++ '-' :: (text.toList ++ [';']) := by
    simp
  rw [scan, hsource, Piece.cut_print, Piece.cut_minus h]
  simp only [Scan.ofPieces, Piece.endLine, List.count_eq_zero.mpr h.not_mem_newline,
    String.ofList_toList]
  rfl

/-! ### Runs -/

namespace Session

/-- What is scanned without a fault and parsed without a complaint is correct. -/
theorem correct_of_parse {source : String} {tokens : List Token} {declarations : Declarations} {line : Nat}
    (hs : scan source = ⟨tokens, []⟩) (hp : parse tokens = ⟨declarations, [], line⟩) :
    Correct source ∧ program source = declarations := by
  unfold Correct staticDiagnostics program
  rw [hs, hp]
  exact ⟨rfl, rfl⟩

end Session

section Parses

variable {x : Float} {print minus number semicolon last : String} {l : Nat}

theorem parse_print_number :
    parse [⟨.symbol .printWord, print, l⟩, ⟨.number x, number, l⟩,
        ⟨.symbol .semicolon, semicolon, l⟩, ⟨.endOfInput, last, l⟩] =
      ⟨[some (.print (.literal (.number x)))], [], l⟩ := by
  cbv

theorem parse_print_negative :
    parse [⟨.symbol .printWord, print, l⟩, ⟨.symbol .minus, minus, l⟩, ⟨.number x, number, l⟩,
        ⟨.symbol .semicolon, semicolon, l⟩, ⟨.endOfInput, last, l⟩] =
      ⟨[some (.print (.unary ⟨.symbol .minus, minus, l⟩ (.literal (.number x))))], [], l⟩ := by
  cbv

end Parses

/-- **Printed numbers are read back.** The text of a finite double without a sign bit is scanned as
that double, and printing the text of any finite double prints it again. -/
theorem printed_numbers_read_back (x : Float) (hx : x.isFinite = true) :
    (x.toBits.toNat < Binary64.signBit →
      (scan (Value.number x).text).diagnostics = [] ∧
      (scan (Value.number x).text).tokens =
        [⟨.number x, (Value.number x).text, 1⟩, ⟨.endOfInput, "", 1⟩]) ∧
    ∀ (rounds : Nat) (session : Session), session.options = {} →
      session.state.sink.limit = none → session.state.sink.flushRefusal = none →
      Session.run rounds ("print " ++ (Value.number x).text ++ ";") session = .ok .success
        ⟨{}, session.state.holding (session.state.sink.accepted ++
          ((Value.number x).text ++ "\n").toUTF8), {}⟩ := by
  by_cases hsign : x.toBits.toNat < Binary64.signBit
  · have hlt : x.toBits.toNat < Binary64.infinity := by
      rw [← Nat.mod_eq_of_lt hsign]
      exact (Binary64.isFinite_iff x).mp hx
    have hlexeme := Numeral.lexeme_text hlt
    have hscan := scan_number hlexeme
    refine ⟨fun _ => ?_, fun rounds session ho hn hf => ?_⟩
    · rw [Value.text, hscan]
      exact ⟨rfl, rfl⟩
    · obtain ⟨hcorrect, hprogram⟩ :=
        Session.correct_of_parse (scan_print_number hlexeme) parse_print_number
      exact Session.run_print ho hn hf hcorrect hprogram rfl
  · obtain ⟨y, hy, rfl⟩ := Numeral.exists_neg hx (not_lt.mp hsign)
    have hlexeme := Numeral.lexeme_text hy
    have htext : (Value.number (-y)).text = "-" ++ Numeral.text y := Numeral.text_neg hy
    refine ⟨fun h => absurd h hsign, fun rounds session ho hn hf => ?_⟩
    obtain ⟨hcorrect, hprogram⟩ :=
      Session.correct_of_parse (scan_print_negative hlexeme) parse_print_negative
    have hvalue : evaluate (.unary ⟨.symbol .minus, "-", 1⟩ (.literal (.number y)))
        session.state.environment = .ok (.number (-y)) session.state.environment := rfl
    rw [← htext] at hcorrect hprogram
    exact Session.run_print ho hn hf hcorrect hprogram hvalue

/-- A tenth is scanned as itself, and the negative zero is printed again. -/
theorem printed_numbers_read_back_tenth :
    (scan (Value.number 0.1).text).tokens = [⟨.number 0.1, "0.1", 1⟩, ⟨.endOfInput, "", 1⟩] ∧
      Session.run 0 ("print " ++ (Value.number (-0)).text ++ ";") ({} : Session) =
        .ok .success ⟨{}, ⟨{}, { accepted := "-0\n".toUTF8 }⟩, {}⟩ := by
  have htenth : (Value.number 0.1).text = "0.1" := by decide +kernel
  have hzero : (Value.number (-0)).text = "-0" := by decide +kernel
  have hscan := ((printed_numbers_read_back 0.1 (by decide +kernel)).1 (by decide +kernel)).2
  have hrun := (printed_numbers_read_back (-0) (by decide +kernel)).2 0 {} rfl rfl rfl
  rw [htenth] at hscan ⊢
  rw [hzero] at hrun ⊢
  exact ⟨hscan, hrun⟩

end Lox
