import HearingRelay.Decimal.Binary64
import Mathlib.Algebra.Order.Field.Power
import Mathlib.Algebra.Order.Ring.Abs
import Mathlib.Data.Rat.Cast.Order
import Mathlib.Tactic.FieldSimp
import Mathlib.Tactic.Linarith
import Mathlib.Tactic.NormNum
import Mathlib.Tactic.Positivity
import Mathlib.Tactic.Ring

/-!
Rounding to binary64, measured in the rational numbers. A ratio is rounded to a
number within half a unit of its last place, the unit being set by the binary
logarithm of the ratio. Only a ratio that reaches the midpoint between the
largest number and the next power of two is refused, so products and quotients
below that midpoint are numbers again. Scaling down by a power of ten therefore
never fails, and a decimal of seventeen digits up to the largest number is not
too large to be scaled up, two roundings included.
-/

namespace HearingRelay.Decimal

namespace Binary64

def magnitude (x : Binary64) : ℚ := x.significand * 2 ^ x.exponent

structure Finite (x : Binary64) : Prop where
  significand : x.significand < 2 ^ 53
  exponent_low : -1074 ≤ x.exponent
  exponent_high : x.exponent ≤ 971

/-- The midpoint between the largest number and the next power of two. -/
def overflow : ℚ := (2 ^ 54 - 1) * 2 ^ (970 : ℤ)

/-- The midpoint as a natural number. Its exponent is a variable, since
arithmetic on the number itself is slow. -/
theorem overflow_eq {b : ℕ} (hb : b = 970) : overflow = ((2 ^ 54 - 1) * 2 ^ b : ℕ) := by
  have hexponent : (970 : ℤ) = (b : ℤ) := by omega
  unfold overflow
  rw [hexponent, zpow_natCast]
  push_cast
  norm_num

theorem natCast_lt_overflow {n b : ℕ} (hb : b = 970) (h : n < (2 ^ 54 - 1) * 2 ^ b) :
    (n : ℚ) < overflow := by
  rw [overflow_eq hb]
  exact Nat.cast_lt.mpr h

def largest : ℚ := (2 ^ 54 - 2) * 2 ^ (970 : ℤ)

theorem largest_eq {b : ℕ} (hb : b = 970) : largest = ((2 ^ 54 - 2) * 2 ^ b : ℕ) := by
  have hexponent : (970 : ℤ) = (b : ℤ) := by omega
  unfold largest
  rw [hexponent, zpow_natCast]
  push_cast
  norm_num

theorem magnitude_nonneg (x : Binary64) : 0 ≤ x.magnitude := by
  unfold magnitude
  positivity

theorem Finite.magnitude_lt {x : Binary64} (hx : x.Finite) : x.magnitude < overflow := by
  have hsignificand : (x.significand : ℚ) ≤ 2 ^ 53 - 1 := by
    have hnat : x.significand + 1 ≤ 2 ^ 53 := hx.significand
    have hcast : ((x.significand + 1 : ℕ) : ℚ) ≤ ((2 ^ 53 : ℕ) : ℚ) := Nat.cast_le.mpr hnat
    push_cast at hcast
    linarith
  have hexponent : (2 : ℚ) ^ x.exponent ≤ 2 ^ (970 : ℤ) * 2 := by
    rw [← zpow_add_one₀ (by norm_num)]
    exact zpow_le_zpow_right₀ (by norm_num) hx.exponent_high
  have hpositive : (0 : ℚ) < 2 ^ (970 : ℤ) := zpow_pos (by norm_num) _
  unfold magnitude overflow
  generalize (2 : ℚ) ^ (970 : ℤ) = unit at *
  calc x.significand * (2 : ℚ) ^ x.exponent ≤ (2 ^ 53 - 1) * (unit * 2) := by
        gcongr
    _ < (2 ^ 54 - 1) * unit := by linarith

section Logarithm

/-- A power against a ratio, in natural numbers. -/
theorem power_le_ratio_iff {base num den : ℕ} (hbase : 0 < base) (hden : 0 < den) (k : ℤ) :
    (base : ℚ) ^ k ≤ num / den ↔
      if 0 ≤ k then den * base ^ k.toNat ≤ num else den ≤ num * base ^ (-k).toNat := by
  have hden' : (0 : ℚ) < den := Nat.cast_pos.mpr hden
  have hbase' : (0 : ℚ) < base := Nat.cast_pos.mpr hbase
  rw [le_div_iff₀ hden']
  split_ifs with hk
  · obtain ⟨n, rfl⟩ := Int.eq_ofNat_of_zero_le hk
    rw [Int.toNat_natCast, zpow_natCast, ← Nat.cast_le (α := ℚ), mul_comm]
    push_cast
    rfl
  · obtain ⟨n, hn⟩ := Int.eq_ofNat_of_zero_le (by omega : 0 ≤ -k)
    obtain rfl : k = -(n : ℤ) := by omega
    rw [neg_neg, Int.toNat_natCast, zpow_neg, zpow_natCast, inv_mul_le_iff₀ (by positivity),
      ← Nat.cast_le (α := ℚ), mul_comm]
    push_cast
    rfl

theorem reachesPowerOfTwo_iff {num den : ℕ} (hden : 0 < den) (k : ℤ) :
    reachesPowerOfTwo num den k = true ↔ (2 : ℚ) ^ k ≤ num / den := by
  have hpower : ((2 : ℕ) : ℚ) ^ k ≤ num / den ↔ _ := power_le_ratio_iff two_pos hden k
  rw [Nat.cast_ofNat] at hpower
  rw [hpower]
  unfold reachesPowerOfTwo
  split_ifs <;> exact decide_eq_true_iff

/-- The binary logarithms of two numbers tell that of their ratio but for one. -/
theorem log2_bounds {num den : ℕ} (hnum : 0 < num) (hden : 0 < den) :
    (2 : ℚ) ^ ((num.log2 : ℤ) - den.log2 - 1) ≤ num / den ∧
      (num : ℚ) / den < 2 ^ ((num.log2 : ℤ) - den.log2 + 1) := by
  have hden' : (0 : ℚ) < den := Nat.cast_pos.mpr hden
  have hnumlow : (2 : ℚ) ^ (num.log2 : ℤ) ≤ num := by
    rw [zpow_natCast]
    exact_mod_cast Nat.log2_self_le hnum.ne'
  have hnumhigh : (num : ℚ) < 2 ^ ((num.log2 : ℤ) + 1) := by
    have h : num < 2 ^ (num.log2 + 1) := Nat.lt_log2_self
    exact_mod_cast h
  have hdenlow : (2 : ℚ) ^ (den.log2 : ℤ) ≤ den := by
    rw [zpow_natCast]
    exact_mod_cast Nat.log2_self_le hden.ne'
  have hdenhigh : (den : ℚ) < 2 ^ ((den.log2 : ℤ) + 1) := by
    have h : den < 2 ^ (den.log2 + 1) := Nat.lt_log2_self
    exact_mod_cast h
  constructor
  · rw [le_div_iff₀ hden']
    calc (2 : ℚ) ^ ((num.log2 : ℤ) - den.log2 - 1) * den
        ≤ 2 ^ ((num.log2 : ℤ) - den.log2 - 1) * 2 ^ ((den.log2 : ℤ) + 1) := by gcongr
      _ = 2 ^ (num.log2 : ℤ) := by
          rw [← zpow_add₀ (by norm_num)]
          congr 1
          ring
      _ ≤ num := hnumlow
  · rw [div_lt_iff₀ hden']
    calc (num : ℚ) < 2 ^ ((num.log2 : ℤ) + 1) := hnumhigh
      _ = 2 ^ ((num.log2 : ℤ) - den.log2 + 1) * 2 ^ (den.log2 : ℤ) := by
          rw [← zpow_add₀ (by norm_num)]
          congr 1
          ring
      _ ≤ 2 ^ ((num.log2 : ℤ) - den.log2 + 1) * den := by gcongr

/-- The binary logarithm of a ratio, rounded down. -/
theorem floorLog2_spec {num den : ℕ} (hnum : 0 < num) (hden : 0 < den) :
    (2 : ℚ) ^ floorLog2 num den ≤ num / den ∧ (num : ℚ) / den < 2 ^ (floorLog2 num den + 1) := by
  obtain ⟨hlow, hhigh⟩ := log2_bounds hnum hden
  unfold floorLog2
  dsimp only
  split_ifs with hreaches
  · exact ⟨(reachesPowerOfTwo_iff hden _).mp hreaches, hhigh⟩
  · refine ⟨hlow, ?_⟩
    rw [sub_add_cancel]
    exact not_le.mp fun h => hreaches ((reachesPowerOfTwo_iff hden _).mpr h)

end Logarithm

section Rounding

/-- A quotient is rounded by one half at most. -/
theorem roundQuotient_spec (num : ℕ) {den : ℕ} (hden : 0 < den) :
    (num : ℚ) / den - 1 / 2 ≤ roundQuotient num den ∧
      (roundQuotient num den : ℚ) ≤ num / den + 1 / 2 := by
  have hden' : (0 : ℚ) < den := Nat.cast_pos.mpr hden
  have hdivision : (num : ℚ) / den = (num / den : ℕ) + (num % den : ℕ) / den := by
    have hcast : ((den * (num / den) + num % den : ℕ) : ℚ) = num := by rw [Nat.div_add_mod num den]
    push_cast at hcast
    rw [div_eq_iff hden'.ne', add_mul, div_mul_cancel₀ _ hden'.ne', ← hcast]
    ring
  have hremainder : (0 : ℚ) ≤ (num % den : ℕ) / den := by positivity
  unfold roundQuotient
  dsimp only
  rw [hdivision]
  split_ifs with hup
  · have htwice : den ≤ 2 * (num % den) := by omega
    have hhalf : (1 : ℚ) / 2 ≤ (num % den : ℕ) / den := by
      rw [div_le_div_iff₀ (by norm_num) hden']
      have hcast : ((den : ℕ) : ℚ) ≤ ((2 * (num % den) : ℕ) : ℚ) := Nat.cast_le.mpr htwice
      push_cast at hcast ⊢
      linarith
    have hone : ((num % den : ℕ) : ℚ) / den < 1 := by
      rw [div_lt_one hden']
      exact_mod_cast Nat.mod_lt num hden
    push_cast
    constructor <;> linarith
  · have htwice : 2 * (num % den) ≤ den := by omega
    have hhalf : ((num % den : ℕ) : ℚ) / den ≤ 1 / 2 := by
      rw [div_le_div_iff₀ hden' (by norm_num)]
      have hcast : ((2 * (num % den) : ℕ) : ℚ) ≤ ((den : ℕ) : ℚ) := Nat.cast_le.mpr htwice
      push_cast at hcast ⊢
      linarith
    constructor <;> linarith

def lastPlace (num den : ℕ) : ℤ := max (floorLog2 num den - 52) (-1074)

def roundAt (num den : ℕ) (e : ℤ) : ℕ :=
  if 0 ≤ e then roundQuotient num (den * Nat.pow 2 e.toNat)
  else roundQuotient (num * Nat.pow 2 (-e).toNat) den

theorem roundAt_spec (num : ℕ) {den : ℕ} (hden : 0 < den) (e : ℤ) :
    (num : ℚ) / den / 2 ^ e - 1 / 2 ≤ roundAt num den e ∧
      (roundAt num den e : ℚ) ≤ num / den / 2 ^ e + 1 / 2 := by
  unfold roundAt
  split_ifs with he
  · obtain ⟨n, rfl⟩ := Int.eq_ofNat_of_zero_le he
    have hscaled : 0 < den * 2 ^ n := Nat.mul_pos hden (Nat.pow_pos (by norm_num))
    have h := roundQuotient_spec num hscaled
    simp only [Int.toNat_natCast, zpow_natCast, Nat.pow_eq]
    push_cast at h
    rw [div_div]
    exact h
  · obtain ⟨n, hn⟩ := Int.eq_ofNat_of_zero_le (by omega : 0 ≤ -e)
    obtain rfl : e = -(n : ℤ) := by omega
    have h := roundQuotient_spec (num * 2 ^ n) hden
    simp only [neg_neg, Int.toNat_natCast, zpow_neg, zpow_natCast, Nat.pow_eq, div_inv_eq_mul]
    push_cast at h
    rw [div_mul_eq_mul_div]
    exact h

/-- A ratio is rounded over its last place; a significand that comes to a power
of two is carried. -/
theorem ofRatio?_eq {num den : ℕ} (hnum : 0 < num) :
    ofRatio? num den =
      if roundAt num den (lastPlace num den) = 2 ^ 53 then
        if 971 < lastPlace num den + 1 then none else some ⟨false, 2 ^ 52, lastPlace num den + 1⟩
      else if 971 < lastPlace num den then none
      else some ⟨false, roundAt num den (lastPlace num den), lastPlace num den⟩ := by
  unfold ofRatio?
  rw [if_neg hnum.ne']
  change (fun carried : ℕ × ℤ =>
      if 971 < carried.2 then none else some (⟨false, carried.1, carried.2⟩ : Binary64))
    (if roundAt num den (lastPlace num den) = 2 ^ 53 then (2 ^ 52, lastPlace num den + 1)
      else (roundAt num den (lastPlace num den), lastPlace num den)) = _
  by_cases hcarry : roundAt num den (lastPlace num den) = 2 ^ 53
  · rw [if_pos hcarry, if_pos hcarry]
  · rw [if_neg hcarry, if_neg hcarry]

variable {num den : ℕ} (hnum : 0 < num) (hden : 0 < den)
include hnum hden

/-- A significand takes 53 bits, or is carried. -/
theorem roundAt_lastPlace_le : roundAt num den (lastPlace num den) ≤ 2 ^ 53 := by
  have hround := (roundAt_spec num hden (lastPlace num den)).2
  have hratio : (num : ℚ) / den / 2 ^ lastPlace num den < 2 ^ 53 := by
    rw [div_lt_iff₀ (by positivity), ← zpow_natCast, ← zpow_add₀ (by norm_num)]
    refine lt_of_lt_of_le (floorLog2_spec hnum hden).2 (zpow_le_zpow_right₀ (by norm_num) ?_)
    have hplace : floorLog2 num den - 52 ≤ lastPlace num den := le_max_left _ _
    push_cast
    omega
  by_contra hnot
  have hcast : ((2 ^ 53 + 1 : ℕ) : ℚ) ≤ roundAt num den (lastPlace num den) :=
    Nat.cast_le.mpr (Nat.succ_le_of_lt (not_le.mp hnot))
  push_cast at hcast
  linarith

/-- A rounded ratio can be represented. -/
theorem ofRatio?_magnitude {x : Binary64} (h : ofRatio? num den = some x) :
    x.Finite ∧
      x.magnitude = (roundAt num den (lastPlace num den) : ℚ) * 2 ^ lastPlace num den := by
  have hle := roundAt_lastPlace_le hnum hden
  have hplace : -1074 ≤ lastPlace num den := le_max_right _ _
  rw [ofRatio?_eq hnum] at h
  split_ifs at h with hcarry hlarge hlarge
  · obtain rfl := Option.some.inj h
    refine ⟨⟨by norm_num, by dsimp only; omega, by dsimp only; omega⟩, ?_⟩
    unfold magnitude
    rw [hcarry, zpow_add_one₀ (by norm_num)]
    push_cast
    ring
  · obtain rfl := Option.some.inj h
    exact ⟨⟨by dsimp only; omega, hplace, by dsimp only; omega⟩, rfl⟩

/-- A rounded ratio lies within half a unit of its last place. -/
theorem ofRatio?_distance {x : Binary64} (h : ofRatio? num den = some x) :
    |x.magnitude - num / den| ≤ 2 ^ lastPlace num den / 2 := by
  have hround := roundAt_spec num hden (lastPlace num den)
  have hunit : (0 : ℚ) < 2 ^ lastPlace num den := by positivity
  have hcancel : (num : ℚ) / den / 2 ^ lastPlace num den * 2 ^ lastPlace num den = num / den :=
    div_mul_cancel₀ _ hunit.ne'
  rw [(ofRatio?_magnitude hnum hden h).2, abs_le]
  constructor <;> nlinarith

/-- Below the midpoint behind the largest number every ratio is rounded. -/
theorem exists_ofRatio? (h : (num : ℚ) / den < overflow) : ∃ x, ofRatio? num den = some x := by
  have hlog := (floorLog2_spec hnum hden).1
  have hplace : lastPlace num den ≤ 971 := by
    have hpower : (2 : ℚ) ^ floorLog2 num den < 2 ^ (1024 : ℤ) := by
      refine lt_trans (lt_of_le_of_lt hlog h) ?_
      unfold overflow
      have heq : (2 : ℚ) ^ (1024 : ℤ) = 2 ^ (970 : ℤ) * 2 ^ (54 : ℤ) := by
        rw [← zpow_add₀ (by norm_num)]
        norm_num
      have hpositive : (0 : ℚ) < 2 ^ (970 : ℤ) := zpow_pos (by norm_num) _
      rw [heq]
      generalize (2 : ℚ) ^ (970 : ℤ) = unit at *
      norm_num
      linarith only [hpositive]
    have hexponent := (zpow_lt_zpow_iff_right₀ (by norm_num : (1 : ℚ) < 2)).mp hpower
    unfold lastPlace
    omega
  rw [ofRatio?_eq hnum]
  split_ifs with hcarry hlarge hlarge
  · -- At the last place of all, a carry needs a ratio that reaches the midpoint.
    exfalso
    have hlast : lastPlace num den = 971 := by omega
    have hround := (roundAt_spec num hden (lastPlace num den)).2
    have hpositive : (0 : ℚ) < 2 ^ (970 : ℤ) := zpow_pos (by norm_num) _
    have hunit : (2 : ℚ) ^ (971 : ℤ) = 2 ^ (970 : ℤ) * 2 := by
      rw [← zpow_add_one₀ (by norm_num)]
      norm_num
    rw [hcarry, hlast, hunit] at hround
    unfold overflow at h
    generalize (2 : ℚ) ^ (970 : ℤ) = unit at *
    have hratio : (num : ℚ) / den / (unit * 2) < 2 ^ 53 - 1 / 2 := by
      rw [div_lt_iff₀ (by linarith only [hpositive])]
      refine lt_of_lt_of_eq h ?_
      ring
    push_cast at hround
    linarith only [hround, hratio]
  · exact ⟨_, rfl⟩
  · omega
  · exact ⟨_, rfl⟩

/-- In the normal range the error is small against the ratio, and no power of
two is passed on the way down. -/
theorem ofRatio?_normal (hnormal : -1022 ≤ floorLog2 num den) {x : Binary64}
    (h : ofRatio? num den = some x) :
    x.magnitude ≤ num / den * (1 + 1 / 2 ^ 53) ∧ (2 : ℚ) ^ floorLog2 num den ≤ x.magnitude := by
  have hlog := (floorLog2_spec hnum hden).1
  have hplace : lastPlace num den = floorLog2 num den - 52 := by
    unfold lastPlace
    omega
  have hunit : (2 : ℚ) ^ floorLog2 num den = 2 ^ 52 * 2 ^ lastPlace num den := by
    rw [hplace, ← zpow_natCast, ← zpow_add₀ (by norm_num)]
    congr 1
    push_cast
    ring
  have hpositive : (0 : ℚ) < 2 ^ lastPlace num den := by positivity
  refine ⟨?_, ?_⟩
  · have hup := (abs_le.mp (ofRatio?_distance hnum hden h)).2
    rw [hunit] at hlog
    linarith
  · have hratio : (2 : ℚ) ^ 52 ≤ num / den / 2 ^ lastPlace num den := by
      rw [le_div_iff₀ hpositive, ← hunit]
      exact hlog
    have hround := (roundAt_spec num hden (lastPlace num den)).1
    have hsignificand : 2 ^ 52 ≤ roundAt num den (lastPlace num den) := by
      by_contra hnot
      have hcast : ((roundAt num den (lastPlace num den) + 1 : ℕ) : ℚ) ≤ ((2 ^ 52 : ℕ) : ℚ) :=
        Nat.cast_le.mpr (not_le.mp hnot)
      push_cast at hcast
      linarith
    have hcast : (2 : ℚ) ^ 52 ≤ roundAt num den (lastPlace num den) := by
      exact_mod_cast hsignificand
    rw [(ofRatio?_magnitude hnum hden h).2, hunit]
    gcongr

end Rounding

section Scaling

theorem zero_finite : zero.Finite := ⟨by decide, by decide, by decide⟩

theorem finite_of_ofRatio? {num den : ℕ} (hden : 0 < den) {x : Binary64}
    (h : ofRatio? num den = some x) : x.Finite := by
  rcases Nat.eq_zero_or_pos num with rfl | hnum
  · obtain rfl : zero = x := Option.some.inj h
    exact zero_finite
  · exact (ofRatio?_magnitude hnum hden h).1

theorem finite_of_ofScaledRatio? {num den : ℕ} (hden : 0 < den) {e : ℤ} {x : Binary64}
    (h : ofScaledRatio? num den e = some x) : x.Finite := by
  unfold ofScaledRatio? at h
  split_ifs at h
  · exact finite_of_ofRatio? hden h
  · exact finite_of_ofRatio? (Nat.mul_pos hden (Nat.pow_pos (by norm_num))) h

/-- A ratio below the midpoint behind the largest number is a number again. -/
theorem exists_finite_ofRatio? {num den : ℕ} (hden : 0 < den) (h : (num : ℚ) / den < overflow) :
    ∃ x, ofRatio? num den = some x ∧ x.Finite := by
  rcases Nat.eq_zero_or_pos num with rfl | hnum
  · exact ⟨zero, rfl, zero_finite⟩
  · obtain ⟨x, hx⟩ := exists_ofRatio? hnum hden h
    exact ⟨x, hx, finite_of_ofRatio? hden hx⟩

theorem exists_ofScaledRatio? {num den : ℕ} (hden : 0 < den) {e : ℤ}
    (h : (num : ℚ) / den * 2 ^ e < overflow) :
    ∃ x, ofScaledRatio? num den e = some x ∧ x.Finite := by
  unfold ofScaledRatio?
  split_ifs with he
  · obtain ⟨n, rfl⟩ := Int.eq_ofNat_of_zero_le he
    refine exists_finite_ofRatio? hden ?_
    simp only [Int.toNat_natCast, zpow_natCast, Nat.pow_eq] at h ⊢
    push_cast
    rwa [mul_div_right_comm]
  · obtain ⟨n, hn⟩ := Int.eq_ofNat_of_zero_le (by omega : 0 ≤ -e)
    obtain rfl : e = -(n : ℤ) := by omega
    simp only [neg_neg, Int.toNat_natCast, zpow_neg, zpow_natCast, Nat.pow_eq] at h ⊢
    refine exists_finite_ofRatio? (Nat.mul_pos hden (Nat.pow_pos (by norm_num))) ?_
    push_cast
    rwa [← div_div, div_eq_mul_inv (_ / _)]

variable {x y : Binary64}

theorem exists_mul? (h : x.magnitude * y.magnitude < overflow) :
    ∃ z, x.mul? y = some z ∧ z.Finite := by
  refine exists_ofScaledRatio? one_pos ?_
  unfold magnitude at h
  rw [zpow_add₀ (by norm_num)]
  push_cast
  rw [div_one]
  calc (x.significand : ℚ) * y.significand * (2 ^ x.exponent * 2 ^ y.exponent)
      = x.significand * 2 ^ x.exponent * (y.significand * 2 ^ y.exponent) := by ring
    _ < overflow := h

theorem significand_pos (hy : 1 ≤ y.magnitude) : 0 < y.significand := by
  rcases Nat.eq_zero_or_pos y.significand with hzero | hpositive
  · simp [magnitude, hzero] at hy
    linarith
  · exact hpositive

/-- Division by one and more keeps a number a number. -/
theorem exists_div? (hx : x.Finite) (hy : 1 ≤ y.magnitude) : ∃ z, x.div? y = some z ∧ z.Finite := by
  refine exists_ofScaledRatio? (significand_pos hy) ?_
  have hquotient : (x.significand : ℚ) / y.significand * 2 ^ (x.exponent - y.exponent) =
      x.magnitude / y.magnitude := by
    unfold magnitude
    rw [zpow_sub₀ (by norm_num), div_mul_div_comm]
  rw [hquotient]
  exact lt_of_le_of_lt (div_le_self x.magnitude_nonneg hy) hx.magnitude_lt

/-- A natural number is rounded upwards by little: by one at most, as long as
it takes 54 bits. -/
theorem exists_ofNat? {m : ℕ} (hm : 0 < m) (hbelow : (m : ℚ) < overflow) :
    ∃ x, ofNat? m = some x ∧ x.Finite ∧ 1 ≤ x.magnitude ∧
      x.magnitude ≤ m * (1 + 1 / 2 ^ 53) ∧ (m < 2 ^ 54 → x.magnitude ≤ m + 1) := by
  have hratio : (m : ℚ) / ((1 : ℕ) : ℚ) = m := by rw [Nat.cast_one, div_one]
  obtain ⟨x, hx⟩ := exists_ofRatio? hm one_pos (by rwa [hratio])
  obtain ⟨hlow, hhigh⟩ := floorLog2_spec hm one_pos
  rw [hratio] at hlow hhigh
  have hone : (1 : ℚ) ≤ m := by exact_mod_cast hm
  have hlog : 0 ≤ floorLog2 m 1 := by
    by_contra hnegative
    have hpow : (2 : ℚ) ^ (floorLog2 m 1 + 1) ≤ 2 ^ (0 : ℤ) :=
      zpow_le_zpow_right₀ (by norm_num) (by omega)
    rw [zpow_zero] at hpow
    linarith
  obtain ⟨hup, hdown⟩ := ofRatio?_normal hm one_pos (by omega) hx
  have hdistance := (abs_le.mp (ofRatio?_distance hm one_pos hx)).2
  rw [hratio] at hup hdistance
  refine ⟨x, hx, (ofRatio?_magnitude hm one_pos hx).1,
    le_trans (one_le_zpow₀ (by norm_num) hlog) hdown, hup, fun hsmall => ?_⟩
  have hbits : floorLog2 m 1 < 54 := by
    have hpow : (2 : ℚ) ^ floorLog2 m 1 < 2 ^ (54 : ℤ) := by
      refine lt_of_le_of_lt hlow ?_
      exact_mod_cast hsmall
    exact (zpow_lt_zpow_iff_right₀ (by norm_num)).mp hpow
  have hplace : (2 : ℚ) ^ lastPlace m 1 ≤ 2 ^ (1 : ℤ) := by
    refine zpow_le_zpow_right₀ (by norm_num) ?_
    unfold lastPlace
    omega
  rw [zpow_one] at hplace
  linarith

theorem tenPow_lt_midpoint {k b : ℕ} (hk : k ≤ 308) (hb : b = 970) :
    10 ^ k < (2 ^ 54 - 1) * 2 ^ b := by
  have hlast : ∀ a b : ℕ, a = 308 → b = 970 → 10 ^ a < (2 ^ 54 - 1) * 2 ^ b := by
    rintro _ _ rfl rfl
    decide +kernel
  obtain ⟨a, ha⟩ : ∃ a, a = 308 := ⟨_, rfl⟩
  exact Nat.lt_of_le_of_lt (Nat.pow_le_pow_right (by norm_num) (ha ▸ hk)) (hlast a b ha hb)

/-- The powers of ten in the table. -/
theorem exists_powerOfTen {k : ℕ} (hk : k ≤ 308) :
    ∃ power, ofNat? (Nat.pow 10 k) = some power ∧ 1 ≤ power.magnitude ∧
      power.magnitude ≤ 10 ^ k * (1 + 1 / 2 ^ 53) := by
  obtain ⟨b, hb⟩ : ∃ b, b = 970 := ⟨_, rfl⟩
  have hpositive : 0 < 10 ^ k := Nat.pow_pos (by norm_num)
  obtain ⟨power, hpower, -, hone, hhigh, -⟩ := exists_ofNat? hpositive
    (natCast_lt_overflow hb (tenPow_lt_midpoint hk hb))
  rw [Nat.cast_pow, Nat.cast_ofNat] at hhigh
  exact ⟨power, hpower, hone, hhigh⟩

end Scaling

end Binary64

open Binary64

/-- Inside the table scaling is one operation. -/
theorem scaleByTen?_near (steps : ℕ) (x : Binary64) {e : ℤ} (h : e.natAbs ≤ 308) :
    scaleByTen? (steps + 1) x e =
      (ofNat? (Nat.pow 10 e.natAbs)).bind fun power =>
        if 0 ≤ e then x.mul? power else x.div? power := by
  refine (if_pos h).trans ?_
  cases ofNat? (Nat.pow 10 e.natAbs) <;> rfl

/-- Below the table scaling divides by a power of ten and goes on. -/
theorem scaleByTen?_far (steps : ℕ) (x : Binary64) {e : ℤ} (h : ¬ e.natAbs ≤ 308) (he : ¬ 0 ≤ e)
    (hzero : ¬ x.isZero = true) : ∃ k ≤ 308, scaleByTen? (steps + 1) x e =
      (ofNat? (Nat.pow 10 k)).bind fun power =>
        (x.div? power).bind fun y => scaleByTen? steps y (e + 308) := by
  refine ⟨308, le_refl _, ((if_neg h).trans ((if_neg hzero).trans (if_neg he))).trans ?_⟩
  generalize Nat.pow 10 308 = n
  cases ofNat? n <;> rfl

/-- Scaling down by a power of ten never fails. -/
theorem exists_scaleByTen? (steps : ℕ) {x : Binary64} (hx : x.Finite) {e : ℤ} (he : e ≤ 0) :
    ∃ y, scaleByTen? steps x e = some y := by
  induction steps generalizing x e with
  | zero => exact ⟨x, rfl⟩
  | succ steps ih =>
    by_cases hnear : e.natAbs ≤ 308
    · obtain ⟨power, hpower, hone, hhigh⟩ := exists_powerOfTen hnear
      rw [scaleByTen?_near steps x hnear, hpower, Option.bind_some]
      split_ifs with hup
      · -- The power is one itself, so the product is the number.
        obtain rfl : e = 0 := le_antisymm he hup
        have hunit : ofNat? (Nat.pow 10 (0 : ℤ).natAbs) = some ⟨false, 2 ^ 52, -52⟩ := by decide
        obtain rfl := Option.some.inj (hunit.symm.trans hpower)
        have hmagnitude : magnitude ⟨false, 2 ^ 52, -52⟩ = 1 := by norm_num [magnitude]
        obtain ⟨z, hz, -⟩ := exists_mul? (x := x) (y := ⟨false, 2 ^ 52, -52⟩)
          (by rw [hmagnitude, mul_one]; exact hx.magnitude_lt)
        exact ⟨z, hz⟩
      · obtain ⟨z, hz, -⟩ := exists_div? hx hone
        exact ⟨z, hz⟩
    · by_cases hzero : x.isZero = true
      · exact ⟨x, (if_neg hnear).trans (if_pos hzero)⟩
      · obtain ⟨k, hk, hscale⟩ := scaleByTen?_far steps x hnear (by omega) hzero
        obtain ⟨power, hpower, hone, -⟩ := exists_powerOfTen hk
        obtain ⟨z, hz, hfinite⟩ := exists_div? hx hone
        rw [hscale, hpower, Option.bind_some, hz, Option.bind_some]
        exact ih hfinite (by omega)

/-- Scaling up by a power of ten fails only where the product is too large. -/
theorem exists_scaleByTen?_up (steps : ℕ) {x : Binary64} {e : ℕ} (he : e ≤ 308)
    (h : x.magnitude * (10 ^ e * (1 + 1 / 2 ^ 53)) < overflow) :
    ∃ y, scaleByTen? (steps + 1) x e = some y := by
  obtain ⟨power, hpower, -, hhigh⟩ := exists_powerOfTen he
  have hproduct : x.magnitude * power.magnitude < overflow :=
    lt_of_le_of_lt (mul_le_mul_of_nonneg_left hhigh x.magnitude_nonneg) h
  obtain ⟨z, hz, -⟩ := exists_mul? hproduct
  have hnear : (e : ℤ).natAbs ≤ 308 := by simpa using he
  rw [scaleByTen?_near steps x hnear, Int.natAbs_natCast, hpower, Option.bind_some,
    if_pos (Int.natCast_nonneg e)]
  exact ⟨z, hz⟩

section Parts

/-- What scaling gives can be represented. -/
theorem finite_of_scaleByTen? {steps : ℕ} {x y : Binary64} {e : ℤ} (hx : x.Finite)
    (h : scaleByTen? steps x e = some y) : y.Finite := by
  induction steps generalizing x e with
  | zero =>
    obtain rfl := Option.some.inj h
    exact hx
  | succ steps ih =>
    by_cases hnear : e.natAbs ≤ 308
    · obtain ⟨power, hpower, hone, -⟩ := exists_powerOfTen hnear
      rw [scaleByTen?_near steps x hnear, hpower, Option.bind_some] at h
      split_ifs at h
      · exact finite_of_ofScaledRatio? one_pos h
      · exact finite_of_ofScaledRatio? (significand_pos hone) h
    · by_cases hzero : x.isZero = true
      · obtain rfl := Option.some.inj (((if_neg hnear).trans (if_pos hzero)).symm.trans h)
        exact hx
      · by_cases hup : 0 ≤ e
        · cases ((if_neg hnear).trans ((if_neg hzero).trans (if_pos hup))).symm.trans h
        · obtain ⟨k, hk, hscale⟩ := scaleByTen?_far steps x hnear hup hzero
          obtain ⟨power, hpower, hone, -⟩ := exists_powerOfTen hk
          rw [hscale, hpower, Option.bind_some] at h
          obtain ⟨z, hz, hrest⟩ := Option.bind_eq_some_iff.mp h
          exact ih (finite_of_ofScaledRatio? (significand_pos hone) hz) hrest

theorem finite_of_ofParts? {negative : Bool} {m : ℕ} {e : ℤ} {x : Binary64}
    (h : ofParts? negative m e = some x) : x.Finite := by
  obtain ⟨y, hy, hscale⟩ := Option.bind_eq_some_iff.mp h
  obtain ⟨z, hz, rfl⟩ := Option.map_eq_some_iff.mp hscale
  obtain ⟨hsignificand, hlow, hhigh⟩ := finite_of_scaleByTen? (finite_of_ofRatio? one_pos hy) hz
  exact ⟨hsignificand, hlow, hhigh⟩

/-- A decimal whose exponent is not positive is never too large. -/
theorem exists_ofParts?_of_le_zero (negative : Bool) {m : ℕ} {e : ℤ} (hm : m < 2 ^ 64)
    (he : e ≤ 0) : ∃ x, ofParts? negative m e = some x := by
  obtain ⟨x, hx, hfinite⟩ : ∃ x, ofNat? m = some x ∧ x.Finite := by
    rcases Nat.eq_zero_or_pos m with rfl | hpositive
    · exact ⟨zero, rfl, zero_finite⟩
    · obtain ⟨b, hb⟩ : ∃ b, b = 970 := ⟨_, rfl⟩
      have hrange : ∀ b : ℕ, b = 970 → 2 ^ 64 < (2 ^ 54 - 1) * 2 ^ b := by
        rintro _ rfl
        decide +kernel
      obtain ⟨x, hx, hfinite, -⟩ := exists_ofNat? hpositive
        (natCast_lt_overflow hb (hm.trans (hrange b hb)))
      exact ⟨x, hx, hfinite⟩
  obtain ⟨y, hy⟩ := exists_scaleByTen? 4 hfinite he
  exact ⟨y.withSign negative, by rw [ofParts?, hx, Option.bind_some, hy, Option.map_some]⟩

theorem natCast_le_largest {n b : ℕ} (hb : b = 970) (h : (n : ℚ) ≤ largest) :
    n ≤ (2 ^ 54 - 2) * 2 ^ b := by
  rw [largest_eq hb] at h
  exact Nat.cast_le.mp h

/-- No power of ten from the 309th on is a number. -/
theorem exponent_le_of_le_largest {m k : ℕ} (hm : 0 < m) (h : (m : ℚ) * 10 ^ k ≤ largest) :
    k ≤ 308 := by
  have htop : ∀ a b : ℕ, a = 309 → b = 970 → (2 ^ 54 - 2) * 2 ^ b < 10 ^ a := by
    rintro _ _ rfl rfl
    decide +kernel
  by_contra hlarge
  obtain ⟨a, ha⟩ : ∃ a, a = 309 := ⟨_, rfl⟩
  obtain ⟨b, hb⟩ : ∃ b, b = 970 := ⟨_, rfl⟩
  have hnat : m * 10 ^ k ≤ (2 ^ 54 - 2) * 2 ^ b := natCast_le_largest hb (by exact_mod_cast h)
  have hpower : 10 ^ a ≤ 10 ^ k := Nat.pow_le_pow_right (by norm_num) (by omega)
  have hone : 10 ^ k ≤ m * 10 ^ k := Nat.le_mul_of_pos_left _ hm
  exact absurd (htop a b ha hb) (by omega)

variable {b : ℕ} (hb : b = 970)
include hb

/-- Decimals of seventeen digits up to the largest number stay below the
midpoint behind it, with the errors of two roundings. The exponent 292 is the
one where the decimals are too close to each other. -/
theorem decimal_below_midpoint {m k : ℕ} (hsmall : m ≤ 10 ^ 17) (hk : k ≤ 308) (hne : k ≠ 292)
    (h : m * 10 ^ k ≤ (2 ^ 54 - 2) * 2 ^ b) :
    m * 10 ^ k * (2 ^ 53 + 1) ^ 2 < (2 ^ 54 - 1) * 2 ^ b * (2 ^ 53) ^ 2 := by
  have htable : ∀ b : ℕ, b = 970 → ∀ k ≤ 308, k ≠ 292 →
      min (10 ^ 17) ((2 ^ 54 - 2) * 2 ^ b / 10 ^ k) * 10 ^ k * (2 ^ 53 + 1) ^ 2 <
        (2 ^ 54 - 1) * 2 ^ b * (2 ^ 53) ^ 2 := by
    rintro _ rfl
    decide +kernel
  refine lt_of_le_of_lt ?_ (htable b hb k hk hne)
  have hmin : m ≤ min (10 ^ 17) ((2 ^ 54 - 2) * 2 ^ b / 10 ^ k) :=
    le_min hsmall ((Nat.le_div_iff_mul_le (by positivity)).mpr h)
  gcongr

/-- At the exponent 292 the last two decimals are near the midpoint, and are
read one by one. -/
theorem decimal_near_midpoint {m k : ℕ} (hk : k = 292) (h : m * 10 ^ k ≤ (2 ^ 54 - 2) * 2 ^ b) :
    (m < 2 ^ 54 ∧ (m + 1) * 10 ^ k * (2 ^ 53 + 1) < (2 ^ 54 - 1) * 2 ^ b * 2 ^ 53) ∨
      ∀ negative, (ofParts? negative m k).isSome = true := by
  have hlast : ∀ k b : ℕ, k = 292 → b = 970 →
      (2 ^ 54 - 2) * 2 ^ b < 17976931348623158 * 10 ^ k ∧
        17976931348623156 * 10 ^ k * (2 ^ 53 + 1) < (2 ^ 54 - 1) * 2 ^ b * 2 ^ 53 := by
    rintro _ _ rfl rfl
    decide +kernel
  have hread : ∀ d < 2, ∀ negative,
      (ofParts? negative (17976931348623156 + d) (292 : ℕ)).isSome = true := by
    decide +kernel
  obtain ⟨habove, hbelow⟩ := hlast k b hk hb
  by_cases hm : m < 17976931348623156
  · refine .inl ⟨by omega, lt_of_le_of_lt ?_ hbelow⟩
    gcongr
    omega
  · right
    have hless : m < 17976931348623158 :=
      Nat.lt_of_mul_lt_mul_right (a := 10 ^ k) (lt_of_le_of_lt h habove)
    obtain ⟨d, rfl⟩ := Nat.exists_eq_add_of_le (not_lt.mp hm)
    rw [hk]
    exact hread d (by omega)

omit hb in
/-- A decimal of seventeen digits is not too large to be read, when it does not
pass the largest number. -/
theorem exists_ofParts?_of_le_largest (negative : Bool) {m k : ℕ} (hm : 0 < m)
    (hsmall : m ≤ 10 ^ 17) (h : (m : ℚ) * 10 ^ k ≤ largest) :
    ∃ x, ofParts? negative m k = some x := by
  obtain ⟨b, hb⟩ : ∃ b, b = 970 := ⟨_, rfl⟩
  have hnat : m * 10 ^ k ≤ (2 ^ 54 - 2) * 2 ^ b := natCast_le_largest hb (by exact_mod_cast h)
  have hk := exponent_le_of_le_largest hm h
  have hone : (m : ℚ) < overflow :=
    natCast_lt_overflow hb (lt_of_le_of_lt hsmall (tenPow_lt_midpoint (by norm_num) hb))
  obtain ⟨x, hx, -, -, herror, hnear⟩ := exists_ofNat? hm hone
  have hread : x.magnitude * (10 ^ k * (1 + 1 / 2 ^ 53)) < overflow →
      ∃ y, ofParts? negative m k = some y := by
    intro hbelow
    obtain ⟨y, hy⟩ := exists_scaleByTen?_up 3 hk hbelow
    exact ⟨y.withSign negative, by rw [ofParts?, hx, Option.bind_some, hy, Option.map_some]⟩
  by_cases h292 : k = 292
  · rcases decimal_near_midpoint hb h292 hnat with ⟨hbits, hbelow⟩ | hsome
    · have hless : ((m : ℚ) + 1) * 10 ^ k * (2 ^ 53 + 1) < overflow * 2 ^ 53 := by
        rw [overflow_eq hb]
        exact_mod_cast hbelow
      apply hread
      calc x.magnitude * (10 ^ k * (1 + 1 / 2 ^ 53))
          ≤ (m + 1) * (10 ^ k * (1 + 1 / 2 ^ 53)) :=
            mul_le_mul_of_nonneg_right (hnear hbits) (by positivity)
        _ = (m + 1) * 10 ^ k * (2 ^ 53 + 1) / 2 ^ 53 := by ring
        _ < overflow := by rwa [div_lt_iff₀ (by positivity)]
    · exact Option.isSome_iff_exists.mp (hsome negative)
  · have hless : (m : ℚ) * 10 ^ k * (2 ^ 53 + 1) ^ 2 < overflow * (2 ^ 53) ^ 2 := by
      rw [overflow_eq hb]
      exact_mod_cast decimal_below_midpoint hb hsmall hk h292 hnat
    apply hread
    calc x.magnitude * (10 ^ k * (1 + 1 / 2 ^ 53))
        ≤ m * (1 + 1 / 2 ^ 53) * (10 ^ k * (1 + 1 / 2 ^ 53)) :=
          mul_le_mul_of_nonneg_right herror (by positivity)
      _ = m * 10 ^ k * (2 ^ 53 + 1) ^ 2 / (2 ^ 53) ^ 2 := by ring
      _ < overflow := by rwa [div_lt_iff₀ (by positivity)]

end Parts

end HearingRelay.Decimal
