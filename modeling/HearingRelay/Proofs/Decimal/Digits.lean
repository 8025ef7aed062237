import HearingRelay.Decimal.Shortest
import HearingRelay.Proofs.Decimal.Rounding

/-!
The decimal digits of a number. The decimal logarithm is exact, because its
first guess is off by one at most for every binary logarithm that can occur.
On the grid with seventeen digits one of the two neighbours of a number always
reads back, so the search for digits ends with some. They lie half a unit of the
last place above the number at most, and so denote a decimal that does not pass
the largest number.
-/

namespace HearingRelay.Decimal

open Binary64

section Logarithm

theorem reachesPowerOfTen_iff {num den : ℕ} (hden : 0 < den) (k : ℤ) :
    reachesPowerOfTen num den k = true ↔ (10 : ℚ) ^ k ≤ num / den := by
  have hbase : 0 < 10 := by norm_num
  have hpower : ((10 : ℕ) : ℚ) ^ k ≤ num / den ↔ _ := power_le_ratio_iff hbase hden k
  rw [Nat.cast_ofNat] at hpower
  rw [hpower]
  unfold reachesPowerOfTen
  split_ifs <;> exact decide_eq_true_iff

def powerOfTwo (k : ℤ) : ℕ × ℕ := (2 ^ k.toNat, 2 ^ (-k).toNat)

theorem powerOfTwo_den_pos (k : ℤ) : 0 < (powerOfTwo k).2 := Nat.pow_pos (by norm_num)

theorem powerOfTwo_ratio (k : ℤ) : ((powerOfTwo k).1 : ℚ) / (powerOfTwo k).2 = 2 ^ k := by
  unfold powerOfTwo
  rcases Int.le_total 0 k with hk | hk
  · obtain ⟨n, rfl⟩ := Int.eq_ofNat_of_zero_le hk
    simp
  · obtain ⟨n, hn⟩ := Int.eq_ofNat_of_zero_le (by omega : 0 ≤ -k)
    obtain rfl : k = -(n : ℤ) := by omega
    simp

def guessLog10 (k : ℤ) : ℤ := (k * 30103).fdiv 100000

/-- Whether the guess is right, or one too small or too large, for all ratios
next to a power of two. -/
def guessHolds (k : ℤ) : Bool :=
  reachesPowerOfTen (powerOfTwo (k - 1)).1 (powerOfTwo (k - 1)).2 (guessLog10 k - 1) &&
    !reachesPowerOfTen (powerOfTwo (k + 1)).1 (powerOfTwo (k + 1)).2 (guessLog10 k + 2)

theorem guessHolds_of_binary64 : ∀ n : ℕ, n < 2099 → guessHolds ((n : ℤ) - 1074) = true := by
  decide +kernel

/-- The decimal logarithm of a ratio in the range of the numbers, rounded down. -/
theorem floorLog10_spec {num den : ℕ} (hnum : 0 < num) (hden : 0 < den)
    (hlow : (2 : ℚ) ^ (-1074 : ℤ) ≤ num / den) (hhigh : (num : ℚ) / den < 2 ^ (1024 : ℤ)) :
    (10 : ℚ) ^ floorLog10 num den ≤ num / den ∧
      (num : ℚ) / den < 10 ^ (floorLog10 num den + 1) := by
  obtain ⟨hbelow, habove⟩ := log2_bounds hnum hden
  have hrange : -1075 < (num.log2 : ℤ) - den.log2 ∧ (num.log2 : ℤ) - den.log2 < 1025 := by
    have hbase : (1 : ℚ) < 2 := by norm_num
    have h₁ := (zpow_lt_zpow_iff_right₀ hbase).mp (lt_of_le_of_lt hlow habove)
    have h₂ := (zpow_lt_zpow_iff_right₀ hbase).mp (lt_of_le_of_lt hbelow hhigh)
    omega
  -- The guess is checked for each binary logarithm that can occur.
  obtain ⟨n, hn⟩ := Int.eq_ofNat_of_zero_le (by omega : 0 ≤ (num.log2 : ℤ) - den.log2 + 1074)
  have hguess := guessHolds_of_binary64 n (by omega)
  have hk : (n : ℤ) - 1074 = (num.log2 : ℤ) - den.log2 := by omega
  rw [hk] at hguess
  simp only [guessHolds, Bool.and_eq_true, Bool.not_eq_true', ← Bool.not_eq_true,
    reachesPowerOfTen_iff (powerOfTwo_den_pos _), powerOfTwo_ratio, not_le] at hguess
  have hfirst : (10 : ℚ) ^ (guessLog10 ((num.log2 : ℤ) - den.log2) - 1) ≤ num / den :=
    le_trans hguess.1 hbelow
  have hlast : (num : ℚ) / den < 10 ^ (guessLog10 ((num.log2 : ℤ) - den.log2) + 2) :=
    lt_trans habove hguess.2
  have hdef : floorLog10 num den =
      if reachesPowerOfTen num den (guessLog10 ((num.log2 : ℤ) - den.log2) + 1) then
        guessLog10 ((num.log2 : ℤ) - den.log2) + 1
      else if reachesPowerOfTen num den (guessLog10 ((num.log2 : ℤ) - den.log2)) then
        guessLog10 ((num.log2 : ℤ) - den.log2)
      else guessLog10 ((num.log2 : ℤ) - den.log2) - 1 := rfl
  rw [hdef]
  generalize guessLog10 ((num.log2 : ℤ) - den.log2) = guess at *
  simp only [reachesPowerOfTen_iff hden]
  split_ifs with hnext hhere
  · refine ⟨hnext, ?_⟩
    rwa [add_assoc]
  · exact ⟨hhere, not_le.mp hnext⟩
  · refine ⟨hfirst, ?_⟩
    rw [sub_add_cancel]
    exact not_le.mp hhere

end Logarithm

section Interval

variable {x : Binary64}

def unit (x : Binary64) : ℚ := 2 ^ x.exponent

theorem unit_pos (x : Binary64) : 0 < unit x := zpow_pos (by norm_num) _

def unitNum (x : Binary64) : ℕ := if 0 ≤ x.exponent then Nat.pow 2 x.exponent.toNat else 1

/-- A number and its unit over their denominator. -/
theorem toRatio_spec (x : Binary64) :
    0 < x.toRatio.2 ∧ (x.toRatio.1 : ℚ) / x.toRatio.2 = x.magnitude ∧
      (unitNum x : ℚ) / x.toRatio.2 = unit x ∧ x.toRatio.1 = x.significand * unitNum x := by
  unfold toRatio magnitude unit unitNum
  split_ifs with he
  · obtain ⟨n, hn⟩ := Int.eq_ofNat_of_zero_le he
    simp [hn]
  · obtain ⟨n, hn⟩ := Int.eq_ofNat_of_zero_le (by omega : 0 ≤ -x.exponent)
    have he' : x.exponent = -(n : ℤ) := by omega
    simp [he', div_eq_mul_inv]

/-- The ends of a rounding interval, and the number between them. -/
structure Spans (i : RoundingInterval) (x : Binary64) : Prop where
  den_pos : 0 < i.den
  value_pos : 0 < i.value
  value : (i.value : ℚ) / i.den = x.magnitude
  high : (i.high : ℚ) / i.den = x.magnitude + unit x / 2
  low : (i.low : ℚ) / i.den ≤ x.magnitude - unit x / 4
  /-- Only at a power of two the interval is shorter below. -/
  low_regular : x.significand ≠ 2 ^ 52 → (i.low : ℚ) / i.den = x.magnitude - unit x / 2

def lowerPart (x : Binary64) : ℕ :=
  if x.significand = Nat.pow 2 52 ∧ -1074 < x.exponent then unitNum x else 2 * unitNum x

theorem lowerPart_bounds (x : Binary64) :
    unitNum x ≤ lowerPart x ∧ lowerPart x ≤ 2 * unitNum x := by
  unfold lowerPart
  split_ifs <;> omega

theorem unitNum_pos (x : Binary64) : 0 < unitNum x := by
  unfold unitNum
  split_ifs
  · exact Nat.pow_pos (by norm_num)
  · exact one_pos

/-- The lower end of the interval of a number. -/
theorem low_of (hx : 0 < x.significand) :
    ((RoundingInterval.of x).low : ℚ) / (RoundingInterval.of x).den =
      x.magnitude - lowerPart x / (4 * x.toRatio.2) := by
  obtain ⟨hden, hvalue, -, hnum⟩ := toRatio_spec x
  have hden' : (0 : ℚ) < x.toRatio.2 := Nat.cast_pos.mpr hden
  have hle : unitNum x ≤ x.toRatio.1 := hnum ▸ Nat.le_mul_of_pos_left _ hx
  have hbelow : lowerPart x ≤ 4 * x.toRatio.1 := by
    have := (lowerPart_bounds x).2
    omega
  change ((4 * x.toRatio.1 - lowerPart x : ℕ) : ℚ) / (4 * x.toRatio.2 : ℕ) = _
  rw [Nat.cast_sub hbelow, ← hvalue]
  push_cast
  field_simp

theorem spans_of (hx : 0 < x.significand) : Spans (RoundingInterval.of x) x := by
  obtain ⟨hden, hvalue, hunit, hnum⟩ := toRatio_spec x
  have hden' : (0 : ℚ) < x.toRatio.2 := Nat.cast_pos.mpr hden
  have hnumpos : 0 < x.toRatio.1 := hnum ▸ Nat.mul_pos hx (unitNum_pos x)
  refine ⟨Nat.mul_pos (by norm_num) hden, Nat.mul_pos (by norm_num) hnumpos, ?_, ?_, ?_, ?_⟩
  · change ((4 * x.toRatio.1 : ℕ) : ℚ) / (4 * x.toRatio.2 : ℕ) = _
    rw [← hvalue]
    push_cast
    field_simp
  · change ((4 * x.toRatio.1 + 2 * unitNum x : ℕ) : ℚ) / (4 * x.toRatio.2 : ℕ) = _
    rw [← hvalue, ← hunit]
    push_cast
    field_simp
    ring
  · have hquarter : unit x / 4 = (unitNum x : ℚ) / (4 * x.toRatio.2) := by
      rw [← hunit]
      field_simp
    have hmore : (unitNum x : ℚ) / (4 * x.toRatio.2) ≤ lowerPart x / (4 * x.toRatio.2) := by
      gcongr
      exact (lowerPart_bounds x).1
    rw [low_of hx]
    linarith
  · intro hregular
    have hpart : lowerPart x = 2 * unitNum x := if_neg fun h => hregular h.1
    rw [low_of hx, hpart, ← hunit]
    push_cast
    field_simp
    ring

def scaledDecimal (i : RoundingInterval) (d : ℕ) (k : ℤ) : ℕ :=
  if 0 ≤ k then d * Nat.pow 10 k.toNat * i.den else d * i.den

def scaledEnd (n : ℕ) (k : ℤ) : ℕ := if 0 ≤ k then n else n * Nat.pow 10 (-k).toNat

theorem exists_scale {i : RoundingInterval} (hden : 0 < i.den) (k : ℤ) :
    ∃ c : ℚ, 0 < c ∧ (∀ d, (scaledDecimal i d k : ℚ) = d * 10 ^ k * c) ∧
      ∀ n, (scaledEnd n k : ℚ) = n / i.den * c := by
  have hden' : (0 : ℚ) < i.den := Nat.cast_pos.mpr hden
  unfold scaledDecimal scaledEnd
  split_ifs with hk
  · obtain ⟨n, rfl⟩ := Int.eq_ofNat_of_zero_le hk
    refine ⟨i.den, hden', fun d => ?_, fun e => (div_mul_cancel₀ _ hden'.ne').symm⟩
    simp
  · obtain ⟨n, hn⟩ := Int.eq_ofNat_of_zero_le (by omega : 0 ≤ -k)
    obtain rfl : k = -(n : ℤ) := by omega
    refine ⟨i.den * 10 ^ n, by positivity, fun d => ?_, fun e => ?_⟩
    · simp only [zpow_neg, zpow_natCast]
      push_cast
      field_simp
    · simp only [neg_neg, Int.toNat_natCast, Nat.pow_eq]
      push_cast
      field_simp

/-- A decimal reads back when it lies inside the interval, or on one of the
ends of a closed one. -/
theorem admits_iff {i : RoundingInterval} (hden : 0 < i.den) (d : ℕ) (k : ℤ) :
    i.admits d k = true ↔
      if i.closed then (i.low : ℚ) / i.den ≤ d * 10 ^ k ∧ d * 10 ^ k ≤ (i.high : ℚ) / i.den
      else (i.low : ℚ) / i.den < d * 10 ^ k ∧ d * 10 ^ k < (i.high : ℚ) / i.den := by
  obtain ⟨c, hc, hdecimal, hend⟩ := exists_scale hden k
  have hdef : i.admits d k =
      if i.closed then
        scaledEnd i.low k ≤ scaledDecimal i d k && scaledDecimal i d k ≤ scaledEnd i.high k
      else scaledEnd i.low k < scaledDecimal i d k && scaledDecimal i d k < scaledEnd i.high k := by
    unfold RoundingInterval.admits scaledEnd scaledDecimal
    split_ifs with hk hclosed hclosed <;>
      simp only [hclosed, if_true, Bool.false_eq_true, if_false]
  rw [hdef]
  split_ifs
  · rw [Bool.and_eq_true, decide_eq_true_iff, decide_eq_true_iff, ← Nat.cast_le (α := ℚ),
      ← Nat.cast_le (α := ℚ), hdecimal, hend, hend, mul_le_mul_iff_left₀ hc,
      mul_le_mul_iff_left₀ hc]
  · rw [Bool.and_eq_true, decide_eq_true_iff, decide_eq_true_iff, ← Nat.cast_lt (α := ℚ),
      ← Nat.cast_lt (α := ℚ), hdecimal, hend, hend, mul_lt_mul_iff_left₀ hc,
      mul_lt_mul_iff_left₀ hc]

/-- A decimal inside the interval reads back. -/
theorem admits_of_inside {i : RoundingInterval} (hden : 0 < i.den) {d : ℕ} {k : ℤ}
    (hlow : (i.low : ℚ) / i.den < d * 10 ^ k) (hhigh : d * 10 ^ k < (i.high : ℚ) / i.den) :
    i.admits d k = true := by
  rw [admits_iff hden]
  split_ifs
  · exact ⟨hlow.le, hhigh.le⟩
  · exact ⟨hlow, hhigh⟩

/-- A decimal that reads back does not pass the upper end of the interval. -/
theorem le_high_of_admits {i : RoundingInterval} (hden : 0 < i.den) {d : ℕ} {k : ℤ}
    (h : i.admits d k = true) : d * 10 ^ k ≤ (i.high : ℚ) / i.den := by
  rw [admits_iff hden] at h
  split_ifs at h
  · exact h.2
  · exact h.2.le

def gridFloor (i : RoundingInterval) (k : ℤ) : ℕ :=
  scaledEnd i.value k / scaledDecimal i 1 k

theorem gridFloor_spec {i : RoundingInterval} (hden : 0 < i.den) (k : ℤ) :
    (gridFloor i k : ℚ) * 10 ^ k ≤ i.value / i.den ∧
      (i.value : ℚ) / i.den < (gridFloor i k + 1) * 10 ^ k := by
  obtain ⟨c, hc, hdecimal, hend⟩ := exists_scale hden k
  have hstep : (scaledDecimal i 1 k : ℚ) = 10 ^ k * c := by rw [hdecimal, Nat.cast_one, one_mul]
  have hpos : 0 < scaledDecimal i 1 k := by
    rw [← Nat.cast_pos (α := ℚ), hstep]
    exact mul_pos (zpow_pos (by norm_num) _) hc
  constructor
  · have hbelow : gridFloor i k * scaledDecimal i 1 k ≤ scaledEnd i.value k :=
      Nat.div_mul_le_self _ _
    rw [← Nat.cast_le (α := ℚ), Nat.cast_mul, hstep, hend, ← mul_assoc] at hbelow
    exact le_of_mul_le_mul_right hbelow hc
  · have habove : scaledEnd i.value k < (gridFloor i k + 1) * scaledDecimal i 1 k := by
      rw [mul_comm]
      exact Nat.lt_mul_div_succ _ hpos
    rw [← Nat.cast_lt (α := ℚ), Nat.cast_mul, hstep, hend, ← mul_assoc] at habove
    exact_mod_cast lt_of_mul_lt_mul_right habove hc.le

/-- Both neighbours of a number on the grid are tried. -/
theorem nearest?_eq (i : RoundingInterval) (k : ℤ) :
    ∃ nearer, (nearer = gridFloor i k + 1 ∨ nearer = gridFloor i k) ∧ i.nearest? k =
      match i.admits (gridFloor i k) k, i.admits (gridFloor i k + 1) k with
      | true, true => some nearer
      | true, false => some (gridFloor i k)
      | false, true => some (gridFloor i k + 1)
      | false, false => none := by
  have hfloor : gridFloor i k =
      (if 0 ≤ k then i.value else i.value * Nat.pow 10 (-k).toNat) /
        (if 0 ≤ k then i.den * Nat.pow 10 k.toNat else i.den) := by
    unfold gridFloor scaledEnd scaledDecimal
    split_ifs
    · rw [one_mul, mul_comm]
    · rw [one_mul]
  rw [hfloor]
  exact ⟨_, ite_eq_or_eq _ _ _, rfl⟩

/-- A neighbour of the number on the grid is found when one of them reads back. -/
theorem nearest?_isSome {i : RoundingInterval} {k : ℤ}
    (h : i.admits (gridFloor i k) k = true ∨ i.admits (gridFloor i k + 1) k = true) :
    (i.nearest? k).isSome = true := by
  obtain ⟨nearer, -, heq⟩ := nearest?_eq i k
  rw [heq]
  rcases h with h | h <;> rw [h] <;> split <;> simp_all

/-- The neighbour that is found reads back. -/
theorem nearest?_spec {i : RoundingInterval} {k : ℤ} {d : ℕ} (h : i.nearest? k = some d) :
    i.admits d k = true ∧ (d = gridFloor i k ∨ d = gridFloor i k + 1) := by
  obtain ⟨nearer, hnearer, heq⟩ := nearest?_eq i k
  rw [heq] at h
  split at h
  case h_1 hfloor hnext =>
    cases h
    rcases hnearer with rfl | rfl
    · exact ⟨hnext, .inr rfl⟩
    · exact ⟨hfloor, .inl rfl⟩
  case h_2 hfloor hnext =>
    cases h
    exact ⟨hfloor, .inl rfl⟩
  case h_3 hfloor hnext =>
    cases h
    exact ⟨hnext, .inr rfl⟩
  case h_4 => cases h

end Interval

section Search

/-- The search stops at the first grid on which a decimal reads back. -/
theorem shortestFrom_spec (i : RoundingInterval) (top : ℤ) (fuel n : ℕ)
    (hlast : (i.nearest? (top + 1 - (n + fuel : ℕ))).isSome = true) :
    n ≤ shortestFrom i top fuel n ∧ shortestFrom i top fuel n ≤ n + fuel ∧
      (i.nearest? (top + 1 - shortestFrom i top fuel n)).isSome = true := by
  induction fuel generalizing n with
  | zero => exact ⟨le_rfl, le_rfl, hlast⟩
  | succ fuel ih =>
    unfold shortestFrom
    split
    case h_1 d hd => exact ⟨le_rfl, Nat.le_add_right _ _, by rw [hd]; rfl⟩
    case h_2 hnone =>
      have hnext : n + 1 + fuel = n + (fuel + 1) := by omega
      obtain ⟨hlow, hhigh, hsome⟩ := ih (n + 1) (by rwa [hnext])
      exact ⟨by omega, by omega, hsome⟩

def leadingPlace (x : Binary64) : ℤ :=
  floorLog10 (RoundingInterval.of x).value (RoundingInterval.of x).den

variable {x : Binary64} (hx : 0 < x.significand) (hfinite : x.Finite)
include hx

theorem unit_le_magnitude : unit x ≤ x.magnitude := by
  have hone : (1 : ℚ) ≤ x.significand := Nat.one_le_cast.mpr hx
  exact le_mul_of_one_le_left (unit_pos x).le hone

include hfinite

theorem leadingPlace_spec :
    (10 : ℚ) ^ leadingPlace x ≤ x.magnitude ∧ x.magnitude < 10 ^ (leadingPlace x + 1) := by
  have hspans := spans_of hx
  have hlow : (2 : ℚ) ^ (-1074 : ℤ) ≤ x.magnitude :=
    (zpow_le_zpow_right₀ (by norm_num) hfinite.exponent_low).trans (unit_le_magnitude hx)
  have hhigh : x.magnitude < (2 : ℚ) ^ (1024 : ℤ) := by
    have hsignificand : (x.significand : ℚ) < 2 ^ (53 : ℤ) := by exact_mod_cast hfinite.significand
    have hexponent : (2 : ℚ) ^ x.exponent ≤ 2 ^ (971 : ℤ) :=
      zpow_le_zpow_right₀ (by norm_num) hfinite.exponent_high
    have heq : (2 : ℚ) ^ (1024 : ℤ) = 2 ^ (53 : ℤ) * 2 ^ (971 : ℤ) := by
      rw [← zpow_add₀ (by norm_num)]
      rfl
    rw [heq]
    exact mul_lt_mul hsignificand hexponent (unit_pos x) (by positivity)
  have h := floorLog10_spec hspans.value_pos hspans.den_pos
  rw [hspans.value] at h
  exact h hlow hhigh

/-- On the grid with seventeen digits the distance to one of the two neighbours
is less than half a unit. Above a power of two, where the interval is shorter
below, the grid is fine enough for the upper one. -/
theorem nearest?_seventeen {k : ℤ} (hk : (10 : ℚ) ^ k * 10 ^ 16 ≤ x.magnitude) :
    ((RoundingInterval.of x).nearest? k).isSome = true := by
  have hspans := spans_of hx
  obtain ⟨hbelow, habove⟩ := gridFloor_spec hspans.den_pos k
  rw [hspans.value] at hbelow habove
  have hunit := unit_pos x
  apply nearest?_isSome
  have hup : (gridFloor (RoundingInterval.of x) k + 1 : ℚ) * 10 ^ k < x.magnitude + unit x / 2 →
      (RoundingInterval.of x).admits (gridFloor (RoundingInterval.of x) k + 1) k = true := by
    intro hclose
    have hlow := hspans.low
    refine admits_of_inside hspans.den_pos ?_ ?_
    · push_cast
      linarith
    · rw [hspans.high]
      exact_mod_cast hclose
  have hmagnitude : x.magnitude = x.significand * unit x := rfl
  -- A power of two has 2 ^ 52 units, so the grid is finer than half a unit; any
  -- other number may have nearly 2 ^ 53, and then the nearer neighbour is taken.
  by_cases hregular : x.significand = 2 ^ 52
  · right
    apply hup
    rw [hmagnitude, hregular] at hk ⊢
    rw [hmagnitude, hregular] at hbelow
    push_cast at hk hbelow ⊢
    linarith
  · by_cases hnear : x.magnitude - gridFloor (RoundingInterval.of x) k * 10 ^ k < unit x / 2
    · left
      refine admits_of_inside hspans.den_pos ?_ ?_
      · rw [hspans.low_regular hregular]
        linarith
      · rw [hspans.high]
        linarith
    · right
      apply hup
      have hsignificand : (x.significand : ℚ) * unit x < 2 ^ 53 * unit x :=
        mul_lt_mul_of_pos_right (by exact_mod_cast hfinite.significand) hunit
      rw [hmagnitude] at hk
      linarith

omit hfinite in
/-- On a grid with a count of digits the neighbour below has no more of them. -/
theorem gridFloor_digits {top : ℤ} {n : ℕ} (hn : 0 < n) (hlow : (10 : ℚ) ^ top ≤ x.magnitude)
    (hhigh : x.magnitude < 10 ^ (top + 1)) :
    0 < gridFloor (RoundingInterval.of x) (top + 1 - n) ∧
      gridFloor (RoundingInterval.of x) (top + 1 - n) < 10 ^ n := by
  have hspans := spans_of hx
  obtain ⟨hbelow, habove⟩ := gridFloor_spec hspans.den_pos (top + 1 - n)
  rw [hspans.value] at hbelow habove
  generalize gridFloor (RoundingInterval.of x) (top + 1 - n) = floor at *
  have hstep : (0 : ℚ) < 10 ^ (top + 1 - n : ℤ) := by positivity
  constructor
  · have hgrid : (10 : ℚ) ^ (top + 1 - n : ℤ) ≤ 10 ^ top :=
      zpow_le_zpow_right₀ (by norm_num) (by omega)
    have hmore : 1 * (10 : ℚ) ^ (top + 1 - n : ℤ) < (floor + 1) * 10 ^ (top + 1 - n : ℤ) := by
      linarith
    have hcast := lt_of_mul_lt_mul_right hmore hstep.le
    exact_mod_cast (by linarith : (0 : ℚ) < floor)
  · have hless : (floor : ℚ) * 10 ^ (top + 1 - n : ℤ) < 10 ^ (n : ℤ) * 10 ^ (top + 1 - n : ℤ) := by
      rw [← zpow_add₀ (by norm_num), add_sub_cancel]
      exact lt_of_le_of_lt hbelow hhigh
    have hcast := lt_of_mul_lt_mul_right hless hstep.le
    rw [zpow_natCast] at hcast
    exact_mod_cast hcast

/-- The decimal the search ends with: it has at most seventeen digits, and is
no further above the number than half a unit. -/
theorem exists_nearest? :
    ∃ n d : ℕ, shortestFrom (RoundingInterval.of x) (leadingPlace x) 16 1 = n ∧
      (RoundingInterval.of x).nearest? (leadingPlace x + 1 - n) = some d ∧
      0 < d ∧ d ≤ 10 ^ 17 ∧
      (d : ℚ) * 10 ^ (leadingPlace x + 1 - n) ≤ x.magnitude + unit x / 2 := by
  have hspans := spans_of hx
  obtain ⟨hlow, hhigh⟩ := leadingPlace_spec hx hfinite
  generalize leadingPlace x = top at *
  have hlast : ((RoundingInterval.of x).nearest? (top + 1 - (1 + 16 : ℕ))).isSome = true := by
    refine nearest?_seventeen hx hfinite (le_trans (le_of_eq ?_) hlow)
    rw [← zpow_natCast, ← zpow_add₀ (by norm_num)]
    congr 1
    push_cast
    ring
  obtain ⟨hfirst, hend, hsome⟩ := shortestFrom_spec _ _ _ _ hlast
  generalize shortestFrom (RoundingInterval.of x) top 16 1 = n at *
  obtain ⟨d, hd⟩ := Option.isSome_iff_exists.mp hsome
  obtain ⟨hadmits, hneighbour⟩ := nearest?_spec hd
  obtain ⟨hpositive, hdigits⟩ := gridFloor_digits hx hfirst hlow hhigh
  have hpower : 10 ^ n ≤ 10 ^ 17 := Nat.pow_le_pow_right (by norm_num) hend
  refine ⟨n, d, rfl, hd, by omega, by omega, ?_⟩
  have hreads := le_high_of_admits hspans.den_pos hadmits
  rwa [hspans.high] at hreads

omit hx hfinite in
/-- Zeros at the end of written digits are a power of ten. -/
theorem dropTrailingZeros_toDigits {d : ℕ} (hd : 0 < d) :
    ∃ stripped zeros, 0 < stripped ∧ d = stripped * 10 ^ zeros ∧
      (Nat.toDigits 10 d).length = (Nat.toDigits 10 stripped).length + zeros ∧
      ((Nat.toDigits 10 d).reverse.dropWhile (· == '0')).reverse = Nat.toDigits 10 stripped := by
  induction d using Nat.strongRecOn with
  | ind d ih =>
    by_cases hzero : d % 10 = 0
    · obtain ⟨stripped, zeros, hpositive, hvalue, hlength, hdrop⟩ :=
        ih (d / 10) (by omega) (by omega)
      have hdigits : Nat.toDigits 10 d = Nat.toDigits 10 (d / 10) ++ ['0'] := by
        rw [Nat.toDigits_of_base_le (by norm_num) (by omega), hzero]
        rfl
      refine ⟨stripped, zeros + 1, hpositive, ?_, ?_, ?_⟩
      · rw [pow_succ, ← mul_assoc, ← hvalue]
        omega
      · rw [hdigits, List.length_append, hlength]
        rfl
      · rw [hdigits, List.reverse_append, ← hdrop]
        rfl
    · have hlast : ∃ c front, Nat.toDigits 10 d = front ++ [c] ∧ c ≠ '0' := by
        have hdigit : ∀ r < 10, r ≠ 0 → Nat.digitChar r ≠ '0' := by decide
        by_cases hsmall : d < 10
        · exact ⟨_, [], Nat.toDigits_of_lt_base hsmall, hdigit d hsmall hd.ne'⟩
        · exact ⟨_, _, Nat.toDigits_of_base_le (by norm_num) (by omega),
            hdigit _ (Nat.mod_lt _ (by norm_num)) hzero⟩
      obtain ⟨c, front, hdigits, hc⟩ := hlast
      refine ⟨d, 0, hd, (mul_one d).symm, rfl, ?_⟩
      rw [hdigits]
      simp [hc]

omit hx in
/-- Half a unit above a number other than the largest one, the largest is not
passed yet. -/
theorem half_unit_above (h : ¬ (x.significand = 2 ^ 53 - 1 ∧ x.exponent = 971)) :
    x.magnitude + unit x / 2 ≤ largest := by
  have hunit := unit_pos x
  have hmagnitude : x.magnitude = x.significand * unit x := rfl
  have hlargest : largest = (2 ^ 54 - 2) * 2 ^ (970 : ℤ) := rfl
  have hbase : (0 : ℚ) < 2 ^ (970 : ℤ) := by positivity
  by_cases hexponent : x.exponent = 971
  · have hsignificand : (x.significand : ℚ) ≤ 2 ^ 53 - 2 := by
      have hnat : x.significand + 2 ≤ 2 ^ 53 := by
        have := hfinite.significand
        omega
      have hcast : (x.significand : ℚ) + 2 ≤ 2 ^ 53 := by exact_mod_cast hnat
      linarith
    have hdouble : unit x = 2 ^ (970 : ℤ) * 2 := by
      unfold unit
      rw [hexponent, ← zpow_add_one₀ (by norm_num)]
      rfl
    have hproduct := mul_le_mul_of_nonneg_right hsignificand hunit.le
    rw [hmagnitude, hlargest]
    rw [hdouble] at hproduct ⊢
    generalize (2 : ℚ) ^ (970 : ℤ) = base at *
    linarith
  · have hsignificand : (x.significand : ℚ) ≤ 2 ^ 53 - 1 := by
      have hcast : (x.significand : ℚ) + 1 ≤ 2 ^ 53 := by exact_mod_cast hfinite.significand
      linarith
    have hsmall : unit x ≤ 2 ^ (970 : ℤ) := by
      have := hfinite.exponent_high
      exact zpow_le_zpow_right₀ (by norm_num) (by omega)
    have hproduct := mul_le_mul_of_nonneg_right hsignificand hunit.le
    rw [hmagnitude, hlargest]
    generalize (2 : ℚ) ^ (970 : ℤ) = base at *
    linarith

omit hx hfinite in
theorem shortest_eq {n d : ℕ} (hn : shortestFrom (RoundingInterval.of x) (leadingPlace x) 16 1 = n)
    (hd : (RoundingInterval.of x).nearest? (leadingPlace x + 1 - n) = some d) :
    (shortest x).digits = ((Nat.toDigits 10 d).reverse.dropWhile (· == '0')).reverse ∧
      (shortest x).exponent = leadingPlace x + 1 - n + ((Nat.toDigits 10 d).length - 1 : ℕ) := by
  have hplace : floorLog10 (RoundingInterval.of x).value (RoundingInterval.of x).den =
      leadingPlace x := rfl
  unfold shortest
  dsimp only
  rw [hplace, hn, hd, Option.getD_some]
  exact ⟨rfl, rfl⟩

omit hx hfinite in
/-- The largest number itself, above which the interval has no number at its end. -/
theorem shortest_largest (h : x.significand = 2 ^ 53 - 1 ∧ x.exponent = 971) :
    (shortest x).digits = Nat.toDigits 10 17976931348623157 ∧ (shortest x).exponent = 308 ∧
      ((17976931348623157 : ℕ) : ℚ) * 10 ^ (292 : ℤ) ≤ largest := by
  have hdigits : ∀ negative,
      (shortest ⟨negative, 2 ^ 53 - 1, 971⟩).digits = Nat.toDigits 10 17976931348623157 ∧
        (shortest ⟨negative, 2 ^ 53 - 1, 971⟩).exponent = 308 := by
    decide +kernel
  have hbelow : ∀ k b : ℕ, k = 292 → b = 970 →
      17976931348623157 * 10 ^ k ≤ (2 ^ 54 - 2) * 2 ^ b := by
    rintro _ _ rfl rfl
    decide +kernel
  obtain ⟨k, hk⟩ : ∃ k : ℕ, k = 292 := ⟨_, rfl⟩
  obtain ⟨b, hb⟩ : ∃ b, b = 970 := ⟨_, rfl⟩
  have hk' : (292 : ℤ) = k := by omega
  obtain ⟨negative, significand, exponent⟩ := x
  obtain ⟨rfl, rfl⟩ : significand = 2 ^ 53 - 1 ∧ exponent = 971 := h
  refine ⟨(hdigits negative).1, (hdigits negative).2, ?_⟩
  rw [largest_eq hb, hk', zpow_natCast]
  exact_mod_cast hbelow k b hk hb

/-- The shortest digits of a number denote a decimal of at most seventeen
digits, no larger than the largest number. -/
theorem shortest_spec :
    ∃ (d : ℕ) (k : ℤ), 0 < d ∧ d ≤ 10 ^ 17 ∧ (d : ℚ) * 10 ^ k ≤ largest ∧
      (shortest x).digits = Nat.toDigits 10 d ∧
      (shortest x).exponent = k + ((Nat.toDigits 10 d).length - 1 : ℕ) := by
  by_cases hlast : x.significand = 2 ^ 53 - 1 ∧ x.exponent = 971
  · obtain ⟨hdigits, hexponent, hbelow⟩ := shortest_largest hlast
    exact ⟨17976931348623157, 292, by norm_num, by norm_num, hbelow, hdigits, hexponent⟩
  · obtain ⟨n, d, hn, hd, hpositive, hsmall, hbound⟩ := exists_nearest? hx hfinite
    obtain ⟨stripped, zeros, hstripped, hvalue, hlength, hdrop⟩ :=
      dropTrailingZeros_toDigits hpositive
    obtain ⟨hdigits, hexponent⟩ := shortest_eq hn hd
    have hnonempty : 0 < (Nat.toDigits 10 stripped).length := Nat.length_toDigits_pos
    refine ⟨stripped, leadingPlace x + 1 - n + zeros, hstripped, ?_, ?_, hdigits.trans hdrop, ?_⟩
    · refine le_trans ?_ hsmall
      rw [hvalue]
      exact Nat.le_mul_of_pos_right _ (by positivity)
    · refine le_trans (le_of_eq ?_) (hbound.trans (half_unit_above hfinite hlast))
      rw [zpow_add₀ (by norm_num), zpow_natCast, hvalue]
      push_cast
      ring
    · rw [hexponent, hlength]
      omega

end Search

end HearingRelay.Decimal
