import FieldFilter.Decimal.Binary

/-!
Decimal numbers: digits and a power of ten. `Scaled.binary?` is the float that is nearest to one.
-/

namespace FieldFilter.Decimal

/-- The decimal number `digits * 10 ^ exponent`. -/
structure Scaled where
  digits : Nat
  exponent : Int
  deriving DecidableEq, Repr

namespace Scaled

/-- The decimal number whose digits are a row, in units of `10 ^ exponent`. The zeros at the end of
the row go into the power of ten. -/
def ofRow (row : List Char) (exponent : Int) : Scaled :=
  let kept := row.reverse.dropWhile (· = '0')
  ⟨value kept.reverse, exponent + (row.length - kept.length : Nat)⟩

/-- Whether a number is so small that the nearest float is zero: the least float exceeds
`2 * 10 ^ -324`, and three bits make less than a digit. -/
def isTiny (d : Scaled) : Bool :=
  d.digits = 0 || (d.digits.log2 / 3 : Nat) + 1 + d.exponent ≤ -324

/-- Whether a number is at least `10 ^ 310` and so beyond the floats: ten bits make more than three
digits. -/
def isHuge (d : Scaled) : Bool := 310 ≤ (d.digits.log2 * 3 / 10 : Nat) + d.exponent

/-- The float nearest to a number, unless that is beyond the floats. -/
def binary? (negative : Bool) (d : Scaled) : Option Binary :=
  if d.isTiny then some (.zero negative)
  else if d.isHuge then none
  else
    Binary.ofRatio? negative (d.digits * Nat.pow 10 d.exponent.toNat)
      (Nat.pow 10 (-d.exponent).toNat)

end Scaled

end FieldFilter.Decimal
