import FieldFilter.Decimal.Shortest

/-!
Numerals. A written number: its sign, its digits before and after the point, and its power of ten.
A float is laid out as a numeral by one record of decisions, `Layout`.
-/

namespace FieldFilter.Decimal

/-- The power of ten of a numeral. -/
structure Power where
  negative : Bool
  digits : List Char
  deriving DecidableEq, Repr

/-- A written number. There is a point exactly when there are digits after it. -/
structure Numeral where
  negative : Bool
  whole : List Char
  fraction : List Char
  power : Option Power
  deriving DecidableEq, Repr

namespace Numeral

/-- Whether the numeral has neither a point nor a power of ten. -/
def isWhole (n : Numeral) : Bool := n.fraction.isEmpty && n.power.isNone

/-- The value of the digits in front of the point. -/
def wholeValue (n : Numeral) : Nat := value n.whole

/-- The power of ten that the numeral shows. -/
def shownPower (n : Numeral) : Int :=
  match n.power with
  | none => 0
  | some p => if p.negative then -(value p.digits : Int) else value p.digits

/-- The decimal number that the numeral writes, without its sign. -/
def scaled (n : Numeral) : Scaled :=
  .ofRow (n.whole ++ n.fraction) (n.shownPower - n.fraction.length)

/-- The float nearest to the numeral, unless that is beyond the floats. -/
def binary? (n : Numeral) : Option Binary := n.scaled.binary? n.negative

/-- The numeral of an integer. -/
def ofInt (z : Int) : Numeral := ⟨z < 0, Decimal.digits z.natAbs, [], none⟩

/-- The characters of a numeral. A power of ten always shows its sign. -/
def chars (n : Numeral) : List Char :=
  let sign := if n.negative then ['-'] else []
  let fraction := if n.fraction.isEmpty then [] else '.' :: n.fraction
  let power := match n.power with
    | none => []
    | some p => 'e' :: (if p.negative then '-' else '+') :: p.digits
  sign ++ n.whole ++ fraction ++ power

end Numeral

/-- Where a float is written without a power of ten: for leading digits of `10 ^ plainFrom` up to
`10 ^ plainTo`. -/
structure Layout where
  plainFrom : Int
  plainTo : Int
  deriving DecidableEq, Repr

/-- Lays out `digits * 10 ^ exponent`. Without a power of ten there is always a digit after the
point; with one there is a point only between digits. -/
def Layout.numeral (layout : Layout) (negative : Bool) (d : Scaled) : Numeral :=
  let row := Decimal.digits d.digits
  let leading : Int := d.exponent + row.length - 1
  if layout.plainFrom ≤ leading ∧ leading ≤ layout.plainTo then
    if leading < 0 then
      ⟨negative, ['0'], List.replicate (-leading - 1).toNat '0' ++ row, none⟩
    else
      let places := leading.toNat + 1
      let fraction := row.drop places
      ⟨negative, row.take places ++ List.replicate (places - row.length) '0',
        if fraction.isEmpty then ['0'] else fraction, none⟩
  else
    ⟨negative, row.take 1, row.drop 1, some ⟨leading < 0, Decimal.digits leading.natAbs⟩⟩

/-- The numeral of a float; zero keeps its sign. -/
def Layout.ofBinary (layout : Layout) (b : Binary) : Numeral :=
  if b.significand = 0 then ⟨b.negative, ['0'], ['0'], none⟩
  else layout.numeral b.negative b.shortest

end FieldFilter.Decimal
