import FieldFilter.Decimal.Binary
import Mathlib.Algebra.Order.Field.Power
import Mathlib.Data.Rat.Cast.Order
import Mathlib.Tactic

/-!
# Rounding to floats

`HasUnit r u` says that `2 ^ u` is the unit in which the float nearest to `r` counts; there is one
such unit, and `unitOf` computes it. From this follow the two laws of rounding that reading needs:
what it gives is a float in normal form (`normal_ofRatio?`), and a quotient that is a float is
rounded to itself (`ofRatio?_of_size`).
-/

namespace FieldFilter.Decimal.Binary

/-- The value of a float, less its sign. -/
def size (b : Binary) : ℚ := b.significand * 2 ^ b.exponent

/-- In units of `2 ^ u` the number has a significand of full length, or the unit is the least. -/
structure HasUnit (r : ℚ) (u : ℤ) : Prop where
  least : leastExponent ≤ u
  lt : r < 2 ^ (u + 53)
  full : 2 ^ (u + 52) ≤ r ∨ u = leastExponent

theorem leadingBit_eq : leadingBit = 2 ^ 52 := by norm_num [leadingBit]

theorem two_zpow_lt {a b : ℤ} : (2 : ℚ) ^ a < 2 ^ b ↔ a < b :=
  zpow_lt_zpow_iff_right₀ (by norm_num)

theorem two_zpow_le {a b : ℤ} : (2 : ℚ) ^ a ≤ 2 ^ b ↔ a ≤ b :=
  zpow_le_zpow_iff_right₀ (by norm_num)

theorem HasUnit.le {r : ℚ} {u v : ℤ} (hu : HasUnit r u) (hv : HasUnit r v) : u ≤ v := by
  obtain full | least := hu.full
  · have := two_zpow_lt.1 (lt_of_le_of_lt full hv.lt)
    omega
  · exact least ▸ hv.least

theorem HasUnit.unique {r : ℚ} {u v : ℤ} (hu : HasUnit r u) (hv : HasUnit r v) : u = v :=
  le_antisymm (hu.le hv) (hv.le hu)

/-- A float in normal form counts in its own unit. -/
theorem Normal.hasUnit {b : Binary} (h : b.Normal) : HasUnit b.size b.exponent := by
  obtain ⟨short, least, -, full⟩ := h
  have unit : (0 : ℚ) < 2 ^ b.exponent := by positivity
  rw [leadingBit_eq] at short full
  refine ⟨least, ?_, full.imp_left fun long => ?_⟩
  · rw [size, add_comm, zpow_add₀ two_ne_zero]
    gcongr
    exact_mod_cast short
  · rw [size, add_comm, zpow_add₀ two_ne_zero]
    gcongr
    exact_mod_cast long

/-! ## The unit of a quotient -/

section
variable {num den : Nat}

theorem inUnits_pos (num : Nat) (hd : 0 < den) (e : ℤ) : 0 < (inUnits num den e).2 :=
  Nat.mul_pos hd (Nat.pow_pos (by norm_num))

theorem inUnits_ratio (num den : Nat) (e : ℤ) :
    ((inUnits num den e).1 : ℚ) / (inUnits num den e).2 = (num : ℚ) / den / 2 ^ e := by
  have split : (2 : ℚ) ^ e * 2 ^ (-e).toNat = 2 ^ e.toNat := by
    rw [← zpow_natCast, ← zpow_natCast, ← zpow_add₀ two_ne_zero]
    congr 1
    omega
  simp only [inUnits, Nat.pow_eq]
  push_cast
  rw [← split]
  field_simp

/-- Comparing the rounded-down quotient is comparing the quotient. -/
theorem div_lt_iff_ratio {above below n : Nat} (h : 0 < below) :
    above / below < n ↔ (above : ℚ) / below < n := by
  rw [Nat.div_lt_iff_lt_mul h, div_lt_iff₀ (by exact_mod_cast h)]
  exact_mod_cast Iff.rfl

theorem quotient_bounds (hn : 0 < num) (hd : 0 < den) :
    (2 : ℚ) ^ ((num.log2 : ℤ) - den.log2 - 1) ≤ (num : ℚ) / den ∧
      (num : ℚ) / den < 2 ^ ((num.log2 : ℤ) - den.log2 + 1) := by
  have hn1 : (2 : ℚ) ^ (num.log2 : ℤ) ≤ num := by
    exact_mod_cast Nat.log2_self_le hn.ne'
  have hn2 : (num : ℚ) < 2 ^ ((num.log2 : ℤ) + 1) := by
    exact_mod_cast (Nat.log2_lt hn.ne').1 (Nat.lt_succ_self _)
  have hd1 : (2 : ℚ) ^ (den.log2 : ℤ) ≤ den := by
    exact_mod_cast Nat.log2_self_le hd.ne'
  have hd2 : (den : ℚ) < 2 ^ ((den.log2 : ℤ) + 1) := by
    exact_mod_cast (Nat.log2_lt hd.ne').1 (Nat.lt_succ_self _)
  have pos : (0 : ℚ) < den := by exact_mod_cast hd
  constructor
  · rw [le_div_iff₀ pos]
    calc (2 : ℚ) ^ ((num.log2 : ℤ) - den.log2 - 1) * den
        ≤ 2 ^ ((num.log2 : ℤ) - den.log2 - 1) * 2 ^ ((den.log2 : ℤ) + 1) := by gcongr
      _ = 2 ^ (num.log2 : ℤ) := by rw [← zpow_add₀ two_ne_zero]; congr 1; ring
      _ ≤ num := hn1
  · rw [div_lt_iff₀ pos]
    calc (num : ℚ) < 2 ^ ((num.log2 : ℤ) + 1) := hn2
      _ = 2 ^ ((num.log2 : ℤ) - den.log2 + 1) * 2 ^ (den.log2 : ℤ) := by
        rw [← zpow_add₀ two_ne_zero]; congr 1; ring
      _ ≤ 2 ^ ((num.log2 : ℤ) - den.log2 + 1) * den := by gcongr

theorem unitOf_hasUnit (hn : 0 < num) (hd : 0 < den) :
    HasUnit ((num : ℚ) / den) (unitOf num den) := by
  obtain ⟨lower, upper⟩ := quotient_bounds hn hd
  have test (e : ℤ) : (inUnits num den e).1 / (inUnits num den e).2 < 2 * leadingBit ↔
      (num : ℚ) / den < 2 ^ (e + 53) := by
    rw [div_lt_iff_ratio (inUnits_pos num hd e), inUnits_ratio, div_lt_iff₀ (by positivity),
      leadingBit_eq, add_comm e, zpow_add₀ two_ne_zero]
    norm_num
  unfold unitOf
  generalize hl : (num.log2 : ℤ) - den.log2 - 53 = low
  dsimp only
  -- One of the two candidates gives a significand of full length.
  obtain ⟨v, hv, bounds⟩ : ∃ v, (if (inUnits num den low).1 / (inUnits num den low).2 <
      2 * leadingBit then low else low + 1) = v ∧
      (2 : ℚ) ^ (v + 52) ≤ (num : ℚ) / den ∧ (num : ℚ) / den < 2 ^ (v + 53) := by
    by_cases short : (num : ℚ) / den < 2 ^ (low + 53)
    · refine ⟨low, if_pos ((test low).2 short), ?_, short⟩
      rwa [← hl, show (num.log2 : ℤ) - den.log2 - 53 + 52 = num.log2 - den.log2 - 1 by ring]
    · refine ⟨low + 1, if_neg (mt (test low).1 short), ?_, ?_⟩
      · rw [show low + 1 + 52 = low + 53 by ring]
        exact not_lt.1 short
      · rwa [← hl, show (num.log2 : ℤ) - den.log2 - 53 + 1 + 53 = num.log2 - den.log2 + 1 by ring]
  rw [hv]
  refine ⟨le_max_left _ _, lt_of_lt_of_le bounds.2 (two_zpow_le.2 ?_), ?_⟩
  · have := le_max_right leastExponent v
    omega
  · obtain low | high := le_total v leastExponent
    · exact .inr (max_eq_left low)
    · rw [max_eq_right high]
      exact .inl bounds.1

/-! ## The two laws -/

/-- In its own unit a quotient has a significand below `2 ^ 53`, of full length or in the least
unit. -/
theorem inUnits_bounds (hn : 0 < num) (hd : 0 < den) :
    (inUnits num den (unitOf num den)).1 <
        2 * leadingBit * (inUnits num den (unitOf num den)).2 ∧
      (leadingBit * (inUnits num den (unitOf num den)).2 ≤
        (inUnits num den (unitOf num den)).1 ∨ unitOf num den = leastExponent) := by
  obtain ⟨-, short, full⟩ := unitOf_hasUnit hn hd
  generalize unitOf num den = u at short full
  have ratio := inUnits_ratio num den u
  have pos : (0 : ℚ) < (inUnits num den u).2 := by
    exact_mod_cast inUnits_pos num hd u
  have unit : (0 : ℚ) < 2 ^ u := by positivity
  rw [eq_div_iff unit.ne'] at ratio
  rw [← ratio, add_comm, zpow_add₀ two_ne_zero, mul_lt_mul_iff_left₀ unit, div_lt_iff₀ pos] at short
  rw [← ratio, add_comm, zpow_add₀ two_ne_zero, mul_le_mul_iff_left₀ unit, le_div_iff₀ pos] at full
  rw [leadingBit_eq, ← pow_succ']
  exact ⟨by exact_mod_cast short, full.imp_left fun long => by exact_mod_cast long⟩

theorem nearest_le {above below n : Nat} (pos : 0 < below) (h : above < n * below) :
    nearest above below ≤ n := by
  obtain ⟨-, low⟩ := nearest_bounds above pos
  by_contra larger
  have step : below * (n + 1) ≤ below * nearest above below := by
    apply Nat.mul_le_mul_left
    omega
  rw [Nat.mul_add, Nat.mul_comm below n] at step
  omega

theorem le_nearest {above below n : Nat} (pos : 0 < below) (h : n * below ≤ above) :
    n ≤ nearest above below := by
  obtain ⟨high, -⟩ := nearest_bounds above pos
  by_contra smaller
  have step : below * (nearest above below + 1) ≤ below * n := by
    apply Nat.mul_le_mul_left
    omega
  rw [Nat.mul_add, Nat.mul_comm below n] at step
  omega

/-- Rounding gives floats in normal form. -/
theorem normal_ofRatio? {negative : Bool} {b : Binary} (hn : 0 < num) (hd : 0 < den)
    (h : ofRatio? negative num den = some b) : b.Normal := by
  have least := (unitOf_hasUnit hn hd).least
  obtain ⟨short, full⟩ := inUnits_bounds hn hd
  have pos := inUnits_pos num hd (unitOf num den)
  have top := nearest_le pos short
  have bottom := full.imp_left (le_nearest pos)
  unfold ofRatio? at h
  dsimp only at h
  generalize nearest (inUnits num den (unitOf num den)).1 (inUnits num den (unitOf num den)).2 = m
    at top bottom h
  by_cases long : m < 2 * leadingBit
  · rw [if_pos long] at h
    split at h
    · rename_i exponent
      obtain rfl := Option.some.inj h
      exact ⟨long, least, exponent, bottom⟩
    · cases h
  · rw [if_neg long] at h
    split at h
    · rename_i exponent
      obtain rfl := Option.some.inj h
      have half : leadingBit < 2 * leadingBit := by decide
      exact ⟨half, Int.le_trans least (Int.le_add_one (Int.le_refl _)), exponent,
        .inl (Nat.le_refl _)⟩
    · cases h

theorem nearest_mul (m : Nat) {den : Nat} (h : 0 < den) : nearest (m * den) den = m := by
  have zero : m * den % den = 0 := Nat.mul_mod_left m den
  have whole : m * den / den = m := Nat.mul_div_cancel m h
  simp only [nearest, zero, whole, Nat.mul_zero, Nat.compare_eq_lt.2 h]

/-- A quotient that is a float is rounded to itself. -/
theorem ofRatio?_of_size {b : Binary} (h : b.Normal) (hn : 0 < num) (hd : 0 < den)
    (same : (num : ℚ) / den = b.size) : ofRatio? b.negative num den = some b := by
  have unit : unitOf num den = b.exponent :=
    (unitOf_hasUnit hn hd).unique (same ▸ h.hasUnit)
  have exact : (inUnits num den b.exponent).1 = b.significand * (inUnits num den b.exponent).2 := by
    have ratio := inUnits_ratio num den b.exponent
    have pos : (0 : ℚ) < (inUnits num den b.exponent).2 := by
      exact_mod_cast inUnits_pos num hd b.exponent
    rw [same, size, mul_div_cancel_right₀ _ (by positivity), div_eq_iff pos.ne'] at ratio
    exact_mod_cast ratio
  obtain ⟨short, -, exponent, -⟩ := h
  unfold ofRatio?
  simp only [unit, exact, nearest_mul b.significand (inUnits_pos num hd b.exponent)]
  rw [if_pos short, if_pos exponent]

end

end FieldFilter.Decimal.Binary
