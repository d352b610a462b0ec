/-
# How numbers are read and written

A number is read as the double nearest to its decimal (`read`) and written
as the shortest decimal that is read back as the same double (`shortest`).
The search looks at ever finer decimal grids, from the one just above the
number on; the first grid with a point that reads back wins, and of two such
points the nearer, the larger in a tie. Only the two neighbours of the number
can be nearest on a grid.

Key definitions: `Numeral.read`, `Numeral.shortest`, `Numeral.text`.
-/
import Lox.Binary64
import Lox.Decimal

namespace Lox
namespace Numeral

/-- The pattern of the double that `d` is read as. -/
def bitsOf (d : Decimal) : Nat := Binary64.nearest d.digits (Nat.pow 10 d.places)

/-- The double that the numeral `whole.part` stands for. -/
def read (whole part : List Char) : Float :=
  Float.ofBits (UInt64.ofNat (bitsOf (.ofDigits whole part)))

/-- The point `count * 10 ^ exponent`. -/
def gridPoint (count : Nat) : Int → Decimal
  | .ofNat zeros => ⟨count * Nat.pow 10 zeros, 0⟩
  | .negSucc n => ⟨count, n + 1⟩

/-- The two points around `steps` on the grid of `10 ^ exponent`, the nearer
first and the larger first in a tie. -/
def neighbours (steps : Nat) (exponent : Int) : List Decimal :=
  let numerator := steps * Nat.pow 10 (-exponent).toNat
  let denominator := Binary64.one * Nat.pow 10 exponent.toNat
  let below := gridPoint (numerator / denominator) exponent
  let above := gridPoint (numerator / denominator + 1) exponent
  if 2 * (numerator % denominator) < denominator then [below, above] else [above, below]

/-- All the digits of a number of steps: `5 ^ 1074 / 10 ^ 1074` is one step. -/
def exact (steps : Nat) : Decimal := ⟨steps * Nat.pow 5 1074, 1074⟩

/-- The first point that reads back as `bits` on `grids` grids from `10 ^ exponent`
on, and all the digits if none does. -/
def search (bits : Nat) : (grids : Nat) → (exponent : Int) → Decimal
  | 0, _ => exact (Binary64.steps bits)
  | grids + 1, exponent =>
    ((neighbours (Binary64.steps bits) exponent).find? fun d => bitsOf d = bits).getD
      (search bits grids (exponent - 1))

/-- Whether a number of steps is less than `10 ^ exponent`. -/
def isBelow (steps : Nat) (exponent : Int) : Bool :=
  steps * Nat.pow 10 (-exponent).toNat < Binary64.one * Nat.pow 10 exponent.toNat

/-- The exponent of the least power of ten above a number of steps. The power
of two below the number leaves two to choose from, as 30103 / 100000 is close
enough to the logarithm of two for all doubles. -/
def ceilingExponent (steps : Nat) : Int :=
  let exponent := ((steps.log2 : Int) - 1074) * 30103 / 100000 + 1
  if isBelow steps exponent then exponent else exponent + 1

/-- The shortest decimal that is read back as `bits`; seventeen digits always
suffice, and the first grid only has a power of ten. -/
def shortest (bits : Nat) : Decimal :=
  if bits = 0 then ⟨0, 0⟩ else search bits 18 (ceilingExponent (Binary64.steps bits))

/-- The text of a pattern with the sign bit clear. -/
def magnitudeText (bits : Nat) : List Char :=
  if bits < Binary64.infinity then (shortest bits).text else "inf".toList

/-- The text of a number: a minus for a set sign bit, and `NaN` without a sign. -/
def text (x : Float) : String :=
  let bits := x.toBits.toNat
  if Binary64.infinity < bits % Binary64.signBit then "NaN"
  else if bits < Binary64.signBit then String.ofList (magnitudeText bits)
  else String.ofList ('-' :: magnitudeText (bits - Binary64.signBit))

end Numeral
end Lox
