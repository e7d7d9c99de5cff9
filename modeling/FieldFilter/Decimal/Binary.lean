import FieldFilter.Decimal.Digits

/-!
Floats of 64 bits as exact numbers: a sign, a significand and a power of two. `Binary.ofRatio?`
rounds a quotient to the nearest of them, in integers throughout.
-/

namespace FieldFilter.Decimal

/-- The finite float `± significand * 2 ^ exponent`. -/
structure Binary where
  negative : Bool
  significand : Nat
  exponent : Int
  deriving DecidableEq, Repr

namespace Binary

/-- The leading bit of a significand of full length, `2 ^ 52`. -/
def leadingBit : Nat := 4503599627370496

def leastExponent : Int := -1074

def greatestExponent : Int := 971

/-- Every float has one normal form: its significand has full length, unless its exponent is the
least. -/
def Normal (b : Binary) : Prop :=
  b.significand < 2 * leadingBit ∧ leastExponent ≤ b.exponent ∧ b.exponent ≤ greatestExponent ∧
    (leadingBit ≤ b.significand ∨ b.exponent = leastExponent)

instance (b : Binary) : Decidable b.Normal := inferInstanceAs (Decidable (_ ∧ _))

def zero (negative : Bool) : Binary := ⟨negative, 0, leastExponent⟩

theorem normal_zero (negative : Bool) : (zero negative).Normal := by
  cases negative <;> decide

/-! ## Rounding -/

/-- The integer nearest to `num / den`; a half goes to the even one. -/
def nearest (num den : Nat) : Nat :=
  let floor := num / den
  match compare (2 * (num % den)) den with
  | .lt => floor
  | .gt => floor + 1
  | .eq => floor + floor % 2

/-- The nearest integer is at most a half away. -/
theorem nearest_bounds (num : Nat) {den : Nat} (h : 0 < den) :
    2 * num ≤ 2 * (den * nearest num den) + den ∧ 2 * (den * nearest num den) ≤ 2 * num + den := by
  have whole := Nat.div_add_mod num den
  have rest := Nat.mod_lt num h
  have even : num / den % 2 = 0 ∨ num / den % 2 = 1 := by omega
  simp only [nearest]
  split <;> rename_i order
  · have := Nat.compare_eq_lt.1 order
    omega
  · have := Nat.compare_eq_gt.1 order
    rw [Nat.mul_add]
    omega
  · have := Nat.compare_eq_eq.1 order
    rcases even with e | e <;> rw [e, Nat.mul_add] <;> omega

/-- The quotient `num / den` in units of `2 ^ exponent`, again as a quotient. -/
def inUnits (num den : Nat) (exponent : Int) : Nat × Nat :=
  (num * Nat.pow 2 (-exponent).toNat, den * Nat.pow 2 exponent.toNat)

/-- The unit in which `num / den` has a significand of full length, or the least unit. The lengths
of `num` and `den` leave two exponents to choose from. -/
def unitOf (num den : Nat) : Int :=
  let low : Int := (num.log2 : Int) - den.log2 - 53
  let (above, below) := inUnits num den low
  max leastExponent (if above / below < 2 * leadingBit then low else low + 1)

/-- The float nearest to a positive quotient, unless that is beyond the floats. -/
def ofRatio? (negative : Bool) (num den : Nat) : Option Binary :=
  let exponent := unitOf num den
  let (above, below) := inUnits num den exponent
  let significand := nearest above below
  let rounded : Binary :=
    if significand < 2 * leadingBit then ⟨negative, significand, exponent⟩
    else ⟨negative, leadingBit, exponent + 1⟩
  if rounded.exponent ≤ greatestExponent then some rounded else none

/-! ## Machine floats -/

/-- The machine float with the same value. The leading bit is not stored but adds one to the stored
exponent. -/
def toFloat (b : Binary) : Float :=
  let size := (b.exponent - leastExponent).toNat * leadingBit + b.significand
  Float.ofBits (UInt64.ofNat (if b.negative then signBit + size else size))

/-- The value of a finite machine float. -/
def ofFloat? (x : Float) : Option Binary :=
  if x.isFinite then
    let bits := x.toBits.toNat
    let size := bits % signBit
    let fraction := size % leadingBit
    some <| match size / leadingBit with
      | 0 => ⟨signBit ≤ bits, fraction, leastExponent⟩
      | e + 1 => ⟨signBit ≤ bits, leadingBit + fraction, leastExponent + e⟩
  else none

end Binary

end FieldFilter.Decimal
