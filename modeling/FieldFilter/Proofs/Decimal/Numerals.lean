import FieldFilter.Decimal.Numeral
import FieldFilter.Proofs.Decimal.Shortest

/-!
# Numerals of integers and floats

The numerals that are written are well formed, and mean what they are written for: a decimal is laid
out as a numeral that writes it again (`scaled_numeral`), so that a float is read back from its
numeral (`binary?_ofBinary`).
-/

namespace FieldFilter.Decimal

/-- The digits of a number other than zero start with another digit than zero. -/
theorem digits_head {n : Nat} (h : n ≠ 0) : ∃ c rest, digits n = c :: rest ∧ c ≠ '0' := by
  induction n using Nat.strong_induction_on with
  | _ n ih =>
    unfold digits
    by_cases small : n < 10
    · rw [Nat.toDigits_of_lt_base small]
      exact ⟨n.digitChar, [], rfl, by simpa using h⟩
    · have high : n / 10 ≠ 0 := by omega
      obtain ⟨c, rest, split, hc⟩ := ih (n / 10) (by omega) high
      unfold digits at split
      rw [Nat.toDigits_of_base_le (by norm_num) (by omega), split]
      exact ⟨c, rest ++ [(n % 10).digitChar], rfl, hc⟩

/-- The digits of a number that ends with another digit than zero. -/
theorem digits_last {n : Nat} (h : n % 10 ≠ 0) : ∃ init c, digits n = init ++ [c] ∧ c ≠ '0' := by
  unfold digits
  by_cases small : n < 10
  · rw [Nat.toDigits_of_lt_base small]
    refine ⟨[], n.digitChar, rfl, ?_⟩
    simp only [ne_eq, Nat.digitChar_eq_zero]
    omega
  · rw [Nat.toDigits_of_base_le (by norm_num) (by omega)]
    exact ⟨_, _, rfl, by simpa using h⟩

theorem isDigit_of_mem_digits {n : Nat} {c : Char} (h : c ∈ digits n) : c.isDigit = true :=
  Nat.isDigit_of_mem_toDigits (by norm_num) (by norm_num) h

theorem digits_ne_nil (n : Nat) : digits n ≠ [] := Nat.toDigits_ne_nil

theorem value_zeros_append (k : Nat) (row : List Char) :
    value (List.replicate k '0' ++ row) = value row := by
  rw [value_eq, value_eq, Nat.ofDigitChars_append, Nat.ofDigitChars_replicate_zero, Nat.mul_zero]

/-- A decimal without a zero at its end is read from its digits, with zeros on either side. -/
theorem ofRow_digits {d : Scaled} (h : d.digits % 10 ≠ 0) (before after : Nat) :
    Scaled.ofRow (List.replicate before '0' ++ digits d.digits ++ List.replicate after '0')
      (d.exponent - after) = d := by
  obtain ⟨init, c, split, hc⟩ := digits_last h
  rw [split, ← List.append_assoc, List.append_assoc _ [c], List.singleton_append,
    Scaled.ofRow_append_zeros hc, List.append_assoc, ← split, value_zeros_append, value_digits,
    Int.sub_add_cancel]

namespace Numeral

/-- The numeral can be read: no zero stands in front of other digits, and no part that is there is
without digits. -/
structure WellFormed (n : Numeral) : Prop where
  some : n.whole ≠ []
  zero : ∀ rest, n.whole = '0' :: rest → rest = []
  whole : ∀ c ∈ n.whole, c.isDigit = true
  fraction : ∀ c ∈ n.fraction, c.isDigit = true
  power : ∀ p, n.power = Option.some p → p.digits ≠ [] ∧ ∀ c ∈ p.digits, c.isDigit = true

theorem wellFormed_ofInt (z : Int) : (ofInt z).WellFormed where
  some := digits_ne_nil _
  zero := by
    intro rest h
    by_cases zero : z.natAbs = 0
    · rw [ofInt, zero] at h
      exact (List.cons.inj h).2.symm
    · obtain ⟨c, tail, split, hc⟩ := digits_head zero
      rw [ofInt, split] at h
      exact absurd (List.cons.inj h).1 hc
  whole := fun _ hc => isDigit_of_mem_digits hc
  fraction := by simp [ofInt]
  power := by simp [ofInt]

end Numeral

namespace Layout

variable {layout : Layout} {negative : Bool} {d : Scaled}

/-- A numeral with the digits of a decimal, and perhaps zeros around them, writes that decimal. -/
theorem scaled_eq {n : Numeral} (h : d.digits % 10 ≠ 0) (before after : Nat)
    (row : n.whole ++ n.fraction =
      List.replicate before '0' ++ digits d.digits ++ List.replicate after '0')
    (unit : n.shownPower - n.fraction.length = d.exponent - after) : n.scaled = d := by
  rw [Numeral.scaled, row, unit]
  exact ofRow_digits h before after

/-- A decimal is the one that its numeral writes. -/
theorem scaled_numeral (h : d.digits % 10 ≠ 0) : (layout.numeral negative d).scaled = d := by
  unfold numeral
  dsimp only
  generalize hl : d.exponent + (digits d.digits).length - 1 = leading
  split
  · split
    · -- zeros in front of the digits
      refine scaled_eq h ((-leading - 1).toNat + 1) 0 ?_ ?_
      · simp [List.replicate_succ]
      · simp only [Numeral.shownPower, List.length_append, List.length_replicate]
        push_cast
        omega
    · split
      · -- zeros behind the digits
        rename_i large none
        have short : (digits d.digits).length ≤ leading.toNat + 1 := by
          simpa [List.drop_eq_nil_iff] using none
        refine scaled_eq h 0 (leading.toNat + 1 - (digits d.digits).length + 1) ?_ ?_
        · simp [List.take_of_length_le short, List.replicate_succ']
        · simp only [Numeral.shownPower, List.length_singleton]
          push_cast
          omega
      · -- a point between the digits
        rename_i large some
        have long : leading.toNat + 1 < (digits d.digits).length := by
          simpa [List.drop_eq_nil_iff] using some
        have none : leading.toNat + 1 - (digits d.digits).length = 0 := by omega
        refine scaled_eq h 0 0 ?_ ?_
        · simp [none]
        · simp only [Numeral.shownPower, List.length_drop]
          push_cast
          omega
  · -- a point after the first digit
    refine scaled_eq h 0 0 ?_ ?_
    · simp [-List.drop_one]
    · have length := List.length_pos_of_ne_nil (digits_ne_nil d.digits)
      have power : (if leading < 0 then -(leading.natAbs : ℤ) else leading.natAbs) = leading := by
        split <;> omega
      simp only [Numeral.shownPower, value_digits, List.length_drop, decide_eq_true_eq, power]
      push_cast
      omega

theorem wellFormed_numeral (h : d.digits ≠ 0) : (layout.numeral negative d).WellFormed := by
  obtain ⟨c, rest, split, hc⟩ := digits_head h
  have all : ∀ x ∈ digits d.digits, x.isDigit = true := fun x hx => isDigit_of_mem_digits hx
  have zeros (k : Nat) : ∀ x ∈ List.replicate k '0', x.isDigit = true := by
    intro x hx
    rw [List.eq_of_mem_replicate hx]
    rfl
  unfold numeral
  dsimp only
  generalize d.exponent + (digits d.digits).length - 1 = leading
  split
  · split
    · refine ⟨by simp, by simp, by simp, ?_, by simp⟩
      exact fun x hx => (List.mem_append.1 hx).elim (zeros _ x) (all x)
    · refine ⟨by simp [split], ?_, ?_, ?_, by simp⟩
      · intro tail he
        simp [split] at he
        exact absurd he.1 hc
      · exact fun x hx => (List.mem_append.1 hx).elim (fun hx => all x (List.mem_of_mem_take hx))
          (zeros _ x)
      · intro x hx
        split at hx
        · exact zeros 1 x hx
        · exact all x (List.mem_of_mem_drop hx)
  · refine ⟨by simp [split], ?_, ?_, ?_, ?_⟩
    · intro tail he
      simp [split] at he
      exact he.2
    · exact fun x hx => all x (List.mem_of_mem_take hx)
    · exact fun x hx => all x (List.mem_of_mem_drop hx)
    · intro p hp
      obtain rfl := Option.some.inj hp
      exact ⟨digits_ne_nil _, fun x hx => isDigit_of_mem_digits hx⟩

/-- The numeral of a float always has a point or a power of ten. -/
theorem isWhole_ofBinary (b : Binary) : (layout.ofBinary b).isWhole = false := by
  unfold ofBinary
  split
  · rfl
  · unfold numeral
    dsimp only
    split
    · split
      · simp [Numeral.isWhole, digits_ne_nil]
      · simp only [Numeral.isWhole]
        split
        · rfl
        · rename_i some
          rw [Bool.not_eq_true] at some
          rw [some]
          rfl
    · simp [Numeral.isWhole]

theorem binary?_zero (negative : Bool) :
    (⟨negative, ['0'], ['0'], none⟩ : Numeral).binary? = some (.zero negative) := by
  cases negative <;> rfl

/-- A float is read back from its numeral. -/
theorem binary?_ofBinary {b : Binary} (h : b.Normal) : (layout.ofBinary b).binary? = some b := by
  unfold ofBinary
  split
  · rename_i zero
    obtain ⟨negative, significand, exponent⟩ := b
    obtain rfl : significand = 0 := zero
    obtain ⟨-, -, -, long | least⟩ := h
    · cases long
    · obtain rfl : exponent = Binary.leastExponent := least
      exact binary?_zero negative
  · rename_i nonzero
    have sign : (layout.numeral b.negative b.shortest).negative = b.negative := by
      unfold numeral
      dsimp only
      split
      · split <;> rfl
      · rfl
    rw [Numeral.binary?, sign, scaled_numeral (Binary.shortest_stripped h nonzero)]
    exact Binary.binary?_shortest h nonzero

theorem wellFormed_ofBinary {b : Binary} (h : b.Normal) : (layout.ofBinary b).WellFormed := by
  unfold ofBinary
  split
  · exact ⟨by simp, by simp, by simp, by simp, by simp⟩
  · rename_i nonzero
    exact wellFormed_numeral (Scaled.digits_ne_zero nonzero (Binary.binary?_shortest h nonzero))

end Layout

end FieldFilter.Decimal
