/-
# Doubles as whole numbers of the smallest step

Every finite double is a whole number of steps of `2 ^ -1074`, the distance
between the two smallest. `steps` is that number for a bit pattern with the
sign bit clear, and `nearest` goes back: it takes a fraction to the bit
pattern of the double closest to it, a tie going to the even pattern, in
exact arithmetic on `Nat`. With the sign bit clear the order of the patterns
is the order of the doubles, so carrying into the next power of two and
overflowing to infinity are plain additions.

Key definitions: `Binary64.steps`, `Binary64.nearest`.
-/
namespace Lox
namespace Binary64

/-- The number of patterns from one power of two to the next, `2 ^ 52`. -/
def binade : Nat := 0x10000000000000

/-- The bit pattern of infinity, one above the largest finite double. -/
def infinity : Nat := 2047 * binade

/-- The pattern of the sign bit. -/
def signBit : Nat := 2048 * binade

/-- The number of steps of `2 ^ -1074` in one. -/
def one : Nat := Nat.pow 2 1074

/-- How many times the smallest step is doubled between neighbours at `bits`. -/
def doublings (bits : Nat) : Nat := bits / binade - 1

/-- The double with pattern `bits`, counted in steps of `2 ^ -1074`. -/
def steps (bits : Nat) : Nat := (bits - doublings bits * binade) * Nat.pow 2 (doublings bits)

/-- The pattern of the double nearest to `numerator / denominator`; a tie goes
to the even pattern, and what rounds past the largest double is infinity. -/
def nearest (numerator denominator : Nat) : Nat :=
  let scaled := numerator * one
  let doublings := (scaled / denominator).log2 - 52
  let spacing := denominator * Nat.pow 2 doublings
  let below := scaled / spacing
  let excess := 2 * (scaled % spacing)
  let rounded := if excess < spacing ∨ (excess = spacing ∧ below % 2 = 0) then below else below + 1
  min (doublings * binade + rounded) infinity

end Binary64
end Lox
