/-
# Decimal fractions

A decimal is `digits / 10 ^ places`. It is read from the digits before and
after a point (`ofDigits`) and written in positional notation, with every
zero and never an exponent (`text`).

Key definitions: `Decimal`, `Decimal.ofDigits`, `Decimal.text`.
-/
namespace Lox

/-- The fraction `digits / 10 ^ places`. -/
structure Decimal where
  digits : Nat
  places : Nat
deriving DecidableEq, Repr

namespace Decimal

/-- The number a row of decimal digits stands for. -/
def digitsValue (row : List Char) : Nat :=
  row.foldl (fun value digit => 10 * value + (digit.toNat - '0'.toNat)) 0

/-- The decimal written `whole.part`. -/
def ofDigits (whole part : List Char) : Decimal :=
  ⟨digitsValue (whole ++ part), part.length⟩

/-- The digits of `n`, led by zeros up to at least `width` of them. -/
def digitRow (width n : Nat) : List Char :=
  let row := Nat.toDigits 10 n
  List.replicate (width - row.length) '0' ++ row

/-- Positional notation: a point only before a fractional part, and a digit
before the point. -/
def text (d : Decimal) : List Char :=
  let row := digitRow (d.places + 1) d.digits
  let whole := row.take (row.length - d.places)
  if d.places = 0 then whole else whole ++ '.' :: row.drop (row.length - d.places)

end Decimal
end Lox
