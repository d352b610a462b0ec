/-
# Values

What an expression can come to, how it is written, which values count as true
and when two are equal. Equality of numbers is that of arithmetic: a NaN is
equal to nothing, and the two zeros are equal.

Key definitions: `Value`, `Value.text`, `Value.isTruthy`, `Value.equals`.
-/
import Lox.Numeral

namespace Lox

inductive Value where
  | nil
  | boolean (b : Bool)
  | number (x : Float)
  | string (s : String)
deriving DecidableEq, Inhabited

namespace Value

def text : Value → String
  | nil => "nil"
  | boolean true => "true"
  | boolean false => "false"
  | number x => Numeral.text x
  | string s => s

/-- All but `nil` and `false`. -/
def isTruthy : Value → Bool
  | nil => false
  | boolean b => b
  | number _ | string _ => true

/-- Values of different kinds are never equal. -/
def equals : Value → Value → Bool
  | nil, nil => true
  | boolean a, boolean b => a == b
  | number a, number b => a == b
  | string a, string b => a == b
  | _, _ => false

end Value
end Lox
