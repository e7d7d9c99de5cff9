import FieldFilter.Decimal.Shortest
import FieldFilter.Proofs.Decimal.Rounding

/-!
# Shortest decimals read back

The decimal with which a float is written reads back to it (`binary?_shortest`). What the search
finds does so because it was tried; failing that the float is written out in full, and a decimal
that is a float reads as that float (`binary?_of_size`).
-/

namespace FieldFilter.Decimal

namespace Scaled

/-- The value of a decimal number. -/
def size (d : Scaled) : ℚ := d.digits * 10 ^ d.exponent

/-- A row of digits that ends with zeros is one that does not, in a greater unit. -/
theorem ofRow_append_zeros {init : List Char} {c : Char} (h : c ≠ '0') (k : Nat) (e : ℤ) :
    ofRow (init ++ c :: List.replicate k '0') e = ⟨value (init ++ [c]), e + k⟩ := by
  have stripped : (init ++ c :: List.replicate k '0').reverse.dropWhile (· = '0') =
      c :: init.reverse := by
    rw [List.reverse_append, List.reverse_cons, List.reverse_replicate, List.append_assoc,
      List.dropWhile_append_of_pos (by simp)]
    exact List.dropWhile_cons_of_neg (by simpa using h)
  simp only [ofRow, stripped, List.reverse_cons, List.reverse_reverse, List.length_append,
    List.length_cons, List.length_replicate, List.length_reverse]
  congr 2
  omega

theorem ofRow_zeros (k : Nat) (e : ℤ) : ofRow (List.replicate k '0') e = ⟨0, e + k⟩ := by
  simp [ofRow, value_eq]

/-- A row is zeros to its end, from the start or from a digit on that is none. -/
theorem row_cases (row : List Char) : (∃ k, row = List.replicate k '0') ∨
    ∃ init c k, row = init ++ c :: List.replicate k '0' ∧ c ≠ '0' := by
  induction row using List.reverseRecOn with
  | nil => exact .inl ⟨0, rfl⟩
  | append_singleton row c ih =>
    by_cases zero : c = '0'
    · subst zero
      obtain ⟨k, rfl⟩ | ⟨init, c, k, rfl, hc⟩ := ih
      · exact .inl ⟨k + 1, List.replicate_succ'.symm⟩
      · exact .inr ⟨init, c, k + 1, by rw [List.replicate_succ']; simp, hc⟩
    · exact .inr ⟨row, c, 0, rfl, zero⟩

theorem value_append_zeros (row : List Char) (k : Nat) :
    value (row ++ List.replicate k '0') = value row * 10 ^ k := by
  rw [value_eq, value_eq, Nat.ofDigitChars_append, Nat.ofDigitChars_replicate_zero, Nat.mul_comm]

theorem size_ofRow (row : List Char) (e : ℤ) : (ofRow row e).size = value row * 10 ^ e := by
  obtain ⟨k, rfl⟩ | ⟨init, c, k, rfl, hc⟩ := row_cases row
  · rw [ofRow_zeros, size, ← List.nil_append (List.replicate k '0'), value_append_zeros, value_eq]
    simp
  · have whole : value (init ++ c :: List.replicate k '0') = value (init ++ [c]) * 10 ^ k := by
      rw [← value_append_zeros, List.append_assoc, List.singleton_append]
    rw [ofRow_append_zeros hc, size, whole, zpow_add₀ (by norm_num)]
    push_cast
    rw [zpow_natCast]
    ring

/-- No zero is left at the end of the digits, unless all of them are. -/
theorem ofRow_stripped {row : List Char} (h : ∀ c ∈ row, c.isDigit = true) (e : ℤ)
    (nonzero : (ofRow row e).digits ≠ 0) : (ofRow row e).digits % 10 ≠ 0 := by
  obtain ⟨k, rfl⟩ | ⟨init, c, k, rfl, hc⟩ := row_cases row
  · rw [ofRow_zeros] at nonzero
    exact absurd rfl nonzero
  · have digit : c.isDigit = true := h c (by simp)
    have low : 48 < c.toNat ∧ c.toNat ≤ 57 := by
      have other : c.toNat ≠ 48 := fun same => hc (Char.toNat_inj.1 same)
      simp only [Char.isDigit, Bool.and_eq_true, decide_eq_true_eq, ge_iff_le,
        UInt32.le_iff_toNat_le] at digit
      exact ⟨lt_of_le_of_ne digit.1 other.symm, digit.2⟩
    rw [ofRow_append_zeros hc, value_eq, Nat.ofDigitChars_append, Nat.ofDigitChars_cons,
      Nat.ofDigitChars_nil, Nat.mul_add_mod]
    have unit : '0'.toNat = 48 := rfl
    omega

/-! ## Decimals that are floats -/

theorem digits_lt (n : Nat) : (n : ℚ) < 10 ^ (n.log2 / 3 + 1) := by
  have bits : n < 2 ^ (n.log2 + 1) := by
    obtain rfl | pos := Nat.eq_zero_or_pos n
    · norm_num
    · exact (Nat.log2_lt pos.ne').1 (Nat.lt_succ_self _)
  calc (n : ℚ) < 2 ^ (n.log2 + 1) := by exact_mod_cast bits
    _ ≤ 2 ^ (3 * (n.log2 / 3 + 1)) := pow_le_pow_right₀ (by norm_num) (by omega)
    _ = 8 ^ (n.log2 / 3 + 1) := by rw [pow_mul]; norm_num
    _ ≤ 10 ^ (n.log2 / 3 + 1) := by gcongr; norm_num

theorem le_digits {n : Nat} (pos : n ≠ 0) : (10 : ℚ) ^ (n.log2 * 3 / 10) ≤ n := by
  have bits : 2 ^ n.log2 ≤ n := Nat.log2_self_le pos
  have tenth : (10 ^ (n.log2 * 3 / 10)) ^ 10 ≤ (2 ^ n.log2) ^ 10 := by
    calc (10 ^ (n.log2 * 3 / 10)) ^ 10 = 10 ^ (n.log2 * 3 / 10 * 10) := (pow_mul ..).symm
      _ ≤ 10 ^ (n.log2 * 3) := Nat.pow_le_pow_right (by norm_num) (by omega)
      _ = 1000 ^ n.log2 := by rw [Nat.mul_comm, pow_mul]; norm_num
      _ ≤ 1024 ^ n.log2 := Nat.pow_le_pow_left (by norm_num) _
      _ = (2 ^ n.log2) ^ 10 := by rw [← pow_mul, Nat.mul_comm, pow_mul]; norm_num
  have root := (Nat.pow_le_pow_iff_left (by norm_num)).1 tenth
  exact_mod_cast Nat.le_trans root bits

theorem least_gap : (10 : ℚ) ^ (-324 : ℤ) < 2 ^ (-1074 : ℤ) := by
  have powers : 2 ^ 1074 < 10 ^ 324 := by decide +kernel
  rw [zpow_neg, zpow_neg, inv_lt_inv₀ (by positivity) (by positivity)]
  exact_mod_cast powers

theorem greatest_gap : (2 : ℚ) ^ (1024 : ℤ) < 10 ^ (310 : ℤ) := by
  have powers : 2 ^ 1024 < 10 ^ 310 := by decide +kernel
  exact_mod_cast powers

/-- A decimal that is not below the least float is not tiny. -/
theorem isTiny_of_size {d : Scaled} (h : (2 : ℚ) ^ (-1074 : ℤ) ≤ d.size) : d.isTiny = false := by
  by_contra tiny
  simp only [isTiny, Bool.or_eq_false_iff, decide_eq_false_iff_not, not_and_or, not_not] at tiny
  obtain zero | small := tiny
  · have least : (0 : ℚ) < 2 ^ (-1074 : ℤ) := by positivity
    rw [size, zero, Nat.cast_zero, zero_mul] at h
    exact absurd h (not_le.2 least)
  · have : d.size ≤ 10 ^ (-324 : ℤ) := by
      calc d.size ≤ 10 ^ (d.digits.log2 / 3 + 1) * 10 ^ d.exponent := by
            rw [size]
            gcongr
            exact (digits_lt d.digits).le
        _ = 10 ^ (((d.digits.log2 / 3 : Nat) : ℤ) + 1 + d.exponent) := by
            rw [← zpow_natCast, ← zpow_add₀ (by norm_num)]
            push_cast
            rfl
        _ ≤ 10 ^ (-324 : ℤ) := zpow_le_zpow_right₀ (by norm_num) small
    exact absurd (le_trans h this) (not_le.2 least_gap)

/-- A decimal that is not above the floats is not huge. -/
theorem isHuge_of_size {d : Scaled} (pos : d.digits ≠ 0) (h : d.size < 2 ^ (1024 : ℤ)) :
    d.isHuge = false := by
  by_contra huge
  simp only [isHuge, decide_eq_false_iff_not, not_not] at huge
  have : (10 : ℚ) ^ (310 : ℤ) ≤ d.size := by
    calc (10 : ℚ) ^ (310 : ℤ) ≤ 10 ^ (((d.digits.log2 * 3 / 10 : Nat) : ℤ) + d.exponent) :=
          zpow_le_zpow_right₀ (by norm_num) huge
      _ = 10 ^ (d.digits.log2 * 3 / 10) * 10 ^ d.exponent := by
          rw [zpow_add₀ (by norm_num), zpow_natCast]
      _ ≤ d.size := by
          rw [size]
          gcongr
          exact le_digits pos
  exact absurd (lt_of_le_of_lt this h) (not_lt.2 greatest_gap.le)

/-- A decimal that is a float reads as that float. -/
theorem binary?_of_size {d : Scaled} {b : Binary} (h : b.Normal) (nonzero : b.significand ≠ 0)
    (same : d.size = b.size) : d.binary? b.negative = some b := by
  have lower : (2 : ℚ) ^ (-1074 : ℤ) ≤ d.size := by
    have one : (1 : ℚ) ≤ b.significand := by exact_mod_cast Nat.one_le_iff_ne_zero.2 nonzero
    rw [same, Binary.size]
    calc (2 : ℚ) ^ (-1074 : ℤ) ≤ 2 ^ b.exponent := Binary.two_zpow_le.2 h.2.1
      _ = 1 * 2 ^ b.exponent := (one_mul _).symm
      _ ≤ b.significand * 2 ^ b.exponent := by gcongr
  have upper : d.size < 2 ^ (1024 : ℤ) := by
    rw [same]
    refine lt_of_lt_of_le h.hasUnit.lt (Binary.two_zpow_le.2 ?_)
    have := h.2.2.1
    simp only [Binary.greatestExponent] at this
    omega
  have digits : d.digits ≠ 0 := by
    intro zero
    have least : (0 : ℚ) < 2 ^ (-1074 : ℤ) := by positivity
    rw [size, zero, Nat.cast_zero, zero_mul] at lower
    exact absurd lower (not_le.2 least)
  unfold binary?
  rw [isTiny_of_size lower, isHuge_of_size digits upper]
  simp only [Bool.false_eq_true, if_false, Nat.pow_eq]
  refine Binary.ofRatio?_of_size h ?_ ?_ ?_
  · positivity
  · positivity
  · have split : (10 : ℚ) ^ d.exponent * 10 ^ (-d.exponent).toNat = 10 ^ d.exponent.toNat := by
      rw [← zpow_natCast, ← zpow_natCast, ← zpow_add₀ (by norm_num)]
      congr 1
      omega
    rw [← same, size]
    push_cast
    rw [← split]
    field_simp

/-- What is read from a decimal is a float in normal form. -/
theorem normal_binary? {negative : Bool} {d : Scaled} {b : Binary}
    (h : d.binary? negative = some b) : b.Normal := by
  unfold binary? at h
  split at h
  · obtain rfl := Option.some.inj h
    exact Binary.normal_zero negative
  · rename_i tiny
    split at h
    · cases h
    · have digits : d.digits ≠ 0 := by
        intro zero
        simp [isTiny, zero] at tiny
      simp only [Nat.pow_eq] at h
      exact Binary.normal_ofRatio? (by positivity) (by positivity) h

/-- Only tiny decimals read as zero, so one that does not has digits. -/
theorem digits_ne_zero {negative : Bool} {d : Scaled} {b : Binary} (nonzero : b.significand ≠ 0)
    (h : d.binary? negative = some b) : d.digits ≠ 0 := by
  intro zero
  have tiny : d.isTiny = true := by simp [isTiny, zero]
  rw [binary?, tiny, if_pos rfl] at h
  obtain rfl := Option.some.inj h
  exact nonzero rfl

end Scaled

namespace Binary

theorem size_exact (b : Binary) : b.exact.size = b.size := by
  unfold exact
  split
  · rename_i negative
    obtain ⟨k, hk⟩ := Int.eq_ofNat_of_zero_le (by omega : 0 ≤ -b.exponent)
    have exponent : b.exponent = -(k : ℤ) := by omega
    rw [Scaled.size_ofRow, value_digits, size, exponent, neg_neg, Int.toNat_natCast, Nat.pow_eq]
    push_cast
    rw [zpow_neg, zpow_neg, zpow_natCast, zpow_natCast,
      show (10 : ℚ) = 5 * 2 by norm_num, mul_pow]
    field_simp
  · rename_i positive
    obtain ⟨k, hk⟩ := Int.eq_ofNat_of_zero_le (not_lt.1 positive)
    rw [Scaled.size_ofRow, value_digits, size, hk, Int.toNat_natCast, Nat.pow_eq]
    push_cast
    simp

/-- The shortest decimal was found by trying it, or is the float in full. -/
theorem shortest_cases (b : Binary) :
    (∃ n, b.shortestOf? n = some b.shortest) ∨ b.shortest = b.exact := by
  unfold shortest
  cases h : (List.range 20).findSome? b.shortestOf? with
  | none => exact .inr rfl
  | some d =>
    obtain ⟨n, -, found⟩ := List.exists_of_findSome?_eq_some h
    exact .inl ⟨n, found⟩

/-- Shortest decimals are read from rows of digits. -/
theorem shortest_ofRow (b : Binary) : ∃ n e, b.shortest = .ofRow (digits n) e := by
  obtain ⟨n, found⟩ | full := b.shortest_cases
  · have listed := List.mem_of_find?_eq_some found
    obtain ⟨k, -, h⟩ := List.mem_map.1 listed
    exact ⟨k, _, h.symm⟩
  · rw [full, exact]
    split <;> exact ⟨_, _, rfl⟩

/-- The shortest decimal of a float other than zero reads back to it. -/
theorem binary?_shortest {b : Binary} (h : b.Normal) (nonzero : b.significand ≠ 0) :
    b.shortest.binary? b.negative = some b := by
  obtain ⟨n, found⟩ | full := b.shortest_cases
  · exact binary?_of_shortestOf? found
  · rw [full]
    exact Scaled.binary?_of_size h nonzero b.size_exact

theorem shortest_stripped {b : Binary} (h : b.Normal) (nonzero : b.significand ≠ 0) :
    b.shortest.digits % 10 ≠ 0 := by
  have digits := Scaled.digits_ne_zero nonzero (binary?_shortest h nonzero)
  obtain ⟨n, e, row⟩ := b.shortest_ofRow
  rw [row] at digits ⊢
  exact Scaled.ofRow_stripped
    (fun c hc => Nat.isDigit_of_mem_toDigits (by decide) (by decide) hc) e digits

end Binary

end FieldFilter.Decimal
