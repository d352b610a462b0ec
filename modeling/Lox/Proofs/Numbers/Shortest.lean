/-
# Shortest decimals

Every decimal the search for the shortest one tries is tested by reading it,
and the last resort, all the digits, has just the steps of the double. So what
is found is read back as the double it was found for, and its text is the text
of a number with that value.

Key theorems: `Binary64.nearest_steps`, `Numeral.bitsOf_shortest`,
`Decimal.lexeme_text`.
-/
import Mathlib
import Lox.Proofs.Pieces.Lexemes

namespace Lox
namespace Binary64

/-- A fraction that is a whole number of spacings is that number. -/
theorem nearest_of_exact {numerator denominator doublings below : Nat}
    (hd : (numerator * one / denominator).log2 - 52 = doublings)
    (hb : numerator * one = below * (denominator * Nat.pow 2 doublings))
    (hpos : 0 < denominator) :
    nearest numerator denominator = min (doublings * binade + below) infinity := by
  have hspacing : 0 < denominator * Nat.pow 2 doublings :=
    Nat.mul_pos hpos (Nat.pow_pos (by decide))
  unfold nearest
  generalize one = one at hd hb ⊢
  dsimp only
  rw [hd, hb, Nat.mul_div_cancel _ hspacing, Nat.mul_mod_left, Nat.mul_zero,
    if_pos (.inl hspacing)]

theorem steps_of_lt {bits : Nat} (h : bits < 2 * binade) : steps bits = bits := by
  have hd : doublings bits = 0 := by
    have := (Nat.div_lt_iff_lt_mul (by decide : 0 < binade)).mpr h
    unfold doublings
    omega
  rw [steps, hd, Nat.zero_mul, Nat.sub_zero]
  exact Nat.mul_one bits

theorem doublings_mul_le (bits : Nat) : doublings bits * binade ≤ bits := by
  have hdiv : bits / binade * binade ≤ bits := Nat.div_mul_le_self bits binade
  exact (Nat.mul_le_mul_right binade (Nat.sub_le _ 1)).trans hdiv

/-- From the first power of two on, a pattern stands for between one and two binades of its
spacing. -/
theorem significand_bounds {bits : Nat} (h : binade ≤ bits) :
    binade ≤ bits - doublings bits * binade ∧ bits - doublings bits * binade < 2 * binade := by
  have hdiv := Nat.div_add_mod bits binade
  have hmod := Nat.mod_lt bits (by decide : 0 < binade)
  have hpos : 0 < bits / binade := Nat.div_pos h (by decide)
  have hd : (bits / binade - 1 + 1) * binade = binade * (bits / binade) := by
    rw [Nat.sub_add_cancel hpos, Nat.mul_comm]
  rw [Nat.add_mul, Nat.one_mul] at hd
  unfold doublings
  omega

theorem log2_steps (bits : Nat) : (steps bits).log2 - 52 = doublings bits := by
  by_cases h : binade ≤ bits
  · obtain ⟨hlow, hhigh⟩ := significand_bounds h
    have hpos : 0 < Nat.pow 2 (doublings bits) := Nat.pow_pos (by decide)
    have hne : steps bits ≠ 0 :=
      (Nat.mul_pos (Nat.lt_of_lt_of_le (by decide) hlow) hpos).ne'
    have hsteps : (steps bits).log2 = 52 + doublings bits := by
      rw [Nat.log2_eq_iff hne]
      constructor
      · rw [Nat.pow_add]
        exact Nat.mul_le_mul_right _ hlow
      · rw [Nat.add_right_comm, Nat.pow_add]
        exact Nat.mul_lt_mul_of_pos_right hhigh hpos
    rw [hsteps, Nat.add_sub_cancel_left]
  · have hlt : bits < binade := not_le.mp h
    have hlog : bits.log2 ≤ 52 := by
      by_cases h0 : bits = 0
      · rw [h0]
        decide
      · exact ((Nat.log2_lt h0).mpr hlt).le
    rw [steps_of_lt (by omega), doublings, Nat.div_eq_of_lt hlt]
    omega

/-- A fraction that comes to just the steps of a finite double is read as that double. -/
theorem nearest_steps {bits numerator denominator : Nat} (h : bits ≤ infinity) (hpos : 0 < denominator)
    (hn : numerator * one = steps bits * denominator) : nearest numerator denominator = bits := by
  have hd : (numerator * one / denominator).log2 - 52 = doublings bits := by
    rw [hn, Nat.mul_div_cancel _ hpos, log2_steps]
  have hb : numerator * one =
      (bits - doublings bits * binade) * (denominator * Nat.pow 2 (doublings bits)) := by
    rw [hn, steps]
    ring
  rw [nearest_of_exact hd hb hpos, Nat.add_sub_of_le (doublings_mul_le bits), Nat.min_eq_left h]

end Binary64

namespace Numeral

theorem pow_ten (n : Nat) : Nat.pow 10 n = Nat.pow 5 n * Nat.pow 2 n := Nat.mul_pow 5 2 n

/-- On a grid that is fine enough all the digits are read back. -/
theorem bitsOf_digits {bits n : Nat} (h : bits ≤ Binary64.infinity)
    (hn : Binary64.one = Nat.pow 2 n) :
    bitsOf ⟨Binary64.steps bits * Nat.pow 5 n, n⟩ = bits := by
  refine Binary64.nearest_steps h (Nat.pow_pos (by decide)) ?_
  rw [pow_ten, hn, Nat.mul_assoc]

theorem bitsOf_exact {bits : Nat} (h : bits ≤ Binary64.infinity) :
    bitsOf (exact (Binary64.steps bits)) = bits := by
  have hplaces : ∃ n, Binary64.one = Nat.pow 2 n ∧
      ∀ steps, exact steps = ⟨steps * Nat.pow 5 n, n⟩ := by
    refine ⟨1074, ?_, fun steps => by rw [exact]⟩
    unfold Binary64.one
    exact Eq.refl _
  obtain ⟨n, hone, hexact⟩ := hplaces
  rw [hexact, bitsOf_digits h hone]

theorem bitsOf_getD_find? {bits : Nat} {otherwise : Decimal} (h : bitsOf otherwise = bits)
    (points : List Decimal) :
    bitsOf ((points.find? fun d => bitsOf d = bits).getD otherwise) = bits := by
  cases hd : points.find? fun d => bitsOf d = bits with
  | none => exact h
  | some d =>
    have hread := List.find?_some hd
    exact of_decide_eq_true hread

/-- Whatever the search finds is read back. -/
theorem bitsOf_search {bits : Nat} (h : bits ≤ Binary64.infinity) : ∀ (grids : Nat) (exponent : Int),
    bitsOf (search bits grids exponent) = bits
  | 0, _ => by
    rw [search]
    exact bitsOf_exact h
  | grids + 1, exponent => by
    rw [search]
    exact bitsOf_getD_find? (bitsOf_search h grids (exponent - 1)) _

theorem bitsOf_zero : bitsOf ⟨0, 0⟩ = 0 := by
  refine Binary64.nearest_steps (Nat.zero_le _) (Nat.pow_pos (by decide)) ?_
  rw [Binary64.steps_of_lt (by decide), Nat.zero_mul, Nat.zero_mul]

/-- **The shortest decimal of a double is read back as that double.** -/
theorem bitsOf_shortest {bits : Nat} (h : bits ≤ Binary64.infinity) : bitsOf (shortest bits) = bits := by
  rw [shortest]
  split
  · rename_i hz
    rw [hz, bitsOf_zero]
  · exact bitsOf_search h 18 _

end Numeral
namespace Decimal

theorem digitsValue_digitRow (width n : Nat) : digitsValue (digitRow width n) = n := by
  have hzeros (zeros : Nat) : (List.replicate zeros '0').foldl
      (fun value digit => 10 * value + (digit.toNat - '0'.toNat)) 0 = 0 := by
    induction zeros with
    | zero => rfl
    | succ zeros ih => rw [List.replicate_succ, List.foldl_cons]; exact ih
  rw [digitsValue, digitRow, List.foldl_append, hzeros]
  exact Nat.ofDigitChars_ten_toDigits

theorem isDigit_of_mem_digitRow (width n : Nat) : ∀ c ∈ digitRow width n, c.isDigit = true := by
  intro c hc
  rcases List.mem_append.mp hc with hc | hc
  · rw [List.eq_of_mem_replicate hc]
    rfl
  · exact Nat.isDigit_of_mem_toDigits (by decide) (by decide) hc

theorem le_length_digitRow (width n : Nat) : width ≤ (digitRow width n).length := by
  simp only [digitRow, List.length_append, List.length_replicate]
  omega

/-- The text of a decimal is that of a number, which is the decimal read. -/
theorem lexeme_text (d : Decimal) :
    Lexeme d.text (.number (Float.ofBits (UInt64.ofNat (Numeral.bitsOf d)))) := by
  have hlength := le_length_digitRow (d.places + 1) d.digits
  have hdigit := isDigit_of_mem_digitRow (d.places + 1) d.digits
  have hvalue := digitsValue_digitRow (d.places + 1) d.digits
  generalize hrow : digitRow (d.places + 1) d.digits = row at hlength hdigit hvalue
  have hcut := List.take_append_drop (row.length - d.places) row
  have hplaces : (row.drop (row.length - d.places)).length = d.places := by
    rw [List.length_drop]
    omega
  have hread : Numeral.read (row.take (row.length - d.places)) (row.drop (row.length - d.places)) =
      Float.ofBits (UInt64.ofNat (Numeral.bitsOf d)) := by
    rw [Numeral.read, ofDigits, hcut, hvalue, hplaces]
  rw [← hcut] at hdigit
  obtain ⟨hwhole, hpart⟩ := List.forall_mem_append.mp hdigit
  rw [← hread, text, hrow]
  cases hw : row.take (row.length - d.places) with
  | nil =>
    have := congrArg List.length hw
    rw [List.length_take, List.length_nil] at this
    omega
  | cons c whole =>
    rw [hw] at hwhole
    obtain ⟨hc, hwhole⟩ := List.forall_mem_cons.mp hwhole
    cases hp : row.drop (row.length - d.places) with
    | nil =>
      have hzero : d.places = 0 := by
        rw [← hplaces, hp]
        rfl
      simp only [if_pos hzero]
      exact .whole hc hwhole
    | cons e part =>
      have hsome : d.places ≠ 0 := by
        rw [← hplaces, hp]
        exact Nat.succ_ne_zero _
      rw [hp] at hpart
      obtain ⟨he, hpart⟩ := List.forall_mem_cons.mp hpart
      simp only [if_neg hsome]
      exact .fraction hc hwhole he hpart

end Decimal
end Lox
