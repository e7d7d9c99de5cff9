/-!
Whole numbers. The value of a row of decimal digits, the row that writes a number, and the numbers
that a word of 64 bits holds. Long rows are valued by halves, so that a row of a million digits
costs a few large products.
-/

namespace FieldFilter.Decimal

/-- Unsigned words are the numbers below `2 ^ 64`. -/
def wordSize : Nat := 18446744073709551616

/-- Signed words are the integers from `-2 ^ 63` on that are below `2 ^ 63`; in the bits of a float
the sign stands above all others. -/
def signBit : Nat := 9223372036854775808

/-- Values a row by halves, `halvings` levels deep. -/
def valueByHalves : (halvings : Nat) → (row : List Char) → Nat
  | 0, row => Nat.ofDigitChars 10 row 0
  | k + 1, row =>
    let (high, low) := row.splitAt (row.length / 2)
    valueByHalves k high * Nat.pow 10 low.length + valueByHalves k low

theorem valueByHalves_eq (halvings : Nat) (row : List Char) :
    valueByHalves halvings row = Nat.ofDigitChars 10 row 0 := by
  induction halvings generalizing row with
  | zero => rfl
  | succ k ih =>
    simp only [valueByHalves, List.splitAt_eq, ih]
    rw [Nat.mul_comm, Nat.pow_eq, ← Nat.ofDigitChars_eq_ofDigitChars_zero, ← Nat.ofDigitChars_append,
      List.take_append_drop]

/-- The number written by a row of decimal digits, greatest first. -/
def value (row : List Char) : Nat := valueByHalves (row.length.log2 - 5) row

theorem value_eq (row : List Char) : value row = Nat.ofDigitChars 10 row 0 := valueByHalves_eq _ row

/-- The shortest row of decimal digits for a number. -/
def digits (n : Nat) : List Char := Nat.toDigits 10 n

@[simp] theorem value_digits (n : Nat) : value (digits n) = n := by
  rw [value_eq, digits, Nat.ofDigitChars_ten_toDigits]

end FieldFilter.Decimal
