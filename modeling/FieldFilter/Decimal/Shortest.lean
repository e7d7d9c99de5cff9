import FieldFilter.Decimal.Scaled

/-!
Shortest decimals. A float is written with the fewest digits that read back to it: of two such
decimals the nearer one, and of two equally near ones the even one. The search asks the reader
itself whether a decimal reads back.
-/

namespace FieldFilter.Decimal

namespace Binary

/-- The multiples of `10 ^ exponent` on either side of a value, the nearer one first. -/
def neighbours (b : Binary) (exponent : Int) : List Nat :=
  let above := b.significand * Nat.pow 2 b.exponent.toNat * Nat.pow 10 (-exponent).toNat
  let below := Nat.pow 2 (-b.exponent).toNat * Nat.pow 10 exponent.toNat
  let floor := above / below
  match compare (2 * (above % below)) below with
  | .lt => [floor, floor + 1]
  | .gt => [floor + 1, floor]
  | .eq => if floor % 2 = 0 then [floor, floor + 1] else [floor + 1, floor]

/-- A power of ten above the value: `30103 / 100000` exceeds the decimal logarithm of two. -/
def scale (b : Binary) : Int :=
  (b.significand.log2 + b.exponent + 1) * 30103 / 100000 + 1

/-- The value written out in full. -/
def exact (b : Binary) : Scaled :=
  if b.exponent < 0 then
    .ofRow (digits (b.significand * Nat.pow 5 (-b.exponent).toNat)) b.exponent
  else .ofRow (digits (b.significand * Nat.pow 2 b.exponent.toNat)) 0

/-- The decimal of `n` digits that reads back to a float, if there is one. -/
def shortestOf? (b : Binary) (n : Nat) : Option Scaled :=
  let exponent := b.scale - n
  ((b.neighbours exponent).map fun d => Scaled.ofRow (digits d) exponent).find? fun d =>
    d.binary? b.negative = some b

/-- The fewest digits that read back to a float. Nineteen grids suffice, since seventeen digits tell
all floats apart. -/
def shortest (b : Binary) : Scaled := ((List.range 20).findSome? b.shortestOf?).getD b.exact

/-- What the search finds reads back. -/
theorem binary?_of_shortestOf? {b : Binary} {n : Nat} {d : Scaled} (h : b.shortestOf? n = some d) :
    d.binary? b.negative = some b := by
  simpa using List.find?_some h

end Binary

end FieldFilter.Decimal
