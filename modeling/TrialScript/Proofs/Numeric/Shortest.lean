import Mathlib.Algebra.Order.Field.Power
import Mathlib.Algebra.Order.Ring.Rat
import Mathlib.Tactic.FieldSimp
import Mathlib.Tactic.Linarith
import TrialScript.Proofs.Numeric.Interval

/-! Decimal texts of numbers: the shortest decimal, and every other one of its value, reads back. -/

namespace TrialScript

namespace Decimal

/-- What a decimal stands for. -/
def value (decimal : Decimal) : ℚ :=
  decimal.digits * 10 ^ decimal.exponent

/-- A grid is whole over its denominator. -/
theorem grid_eq (exponent : Int) :
    (gridNumerator exponent : ℚ) / gridDenominator exponent = 10 ^ exponent := by
  -- From an exponent of zero on the power is in the numerator, below zero in the denominator.
  rw [gridNumerator, gridDenominator]
  push_cast
  rcases Int.le_total 0 exponent with whole | part
  · obtain ⟨n, rfl⟩ := Int.eq_ofNat_of_zero_le whole
    simp
  · obtain ⟨n, negated⟩ := Int.eq_ofNat_of_zero_le (Int.neg_nonneg_of_nonpos part)
    obtain rfl : exponent = -n := by omega
    simp

/-- A point in an interval of quarter units, whose ends may belong to it. -/
def Interval.Within (range : Interval) (point : ℚ) : Prop :=
  if range.closed then (range.low : ℚ) ≤ point ∧ point ≤ range.high
  else (range.low : ℚ) < point ∧ point < range.high

/-- Scaled points are held if the points are within. -/
theorem Interval.holds_iff {range : Interval} {scale point : Nat} (positive : 0 < scale) :
    range.holds scale point = true ↔ range.Within (point / scale) := by
  -- Both bounds are cleared of the scale, which is positive; only their strictness differs.
  have scaled : (0 : ℚ) < scale := by exact_mod_cast positive
  unfold holds Within
  cases range.closed with
  | true =>
    simp only [if_true, decide_eq_true_eq, le_div_iff₀ scaled, div_le_iff₀ scaled]
    norm_cast
  | false =>
    simp only [Bool.false_eq_true, if_false, decide_eq_true_eq, lt_div_iff₀ scaled,
      div_lt_iff₀ scaled]
    norm_cast

/-- A decimal that rounds to the number in the middle of an interval. -/
def Rounds (range : Interval) (decimal : Decimal) : Prop :=
  range.Within (4 * Binary64.unitsPerOne * decimal.value)

/-- The steps of a grid are held where the decimals there are within. -/
theorem rounds_iff_holds {range : Interval} {digits : Nat} {exponent : Int} :
    Rounds range ⟨digits, exponent⟩ ↔ range.holds (gridDenominator exponent)
      (digits * (4 * Binary64.unitsPerOne * gridNumerator exponent)) = true := by
  rw [Interval.holds_iff (gridDenominator_pos exponent), Rounds, value, ← grid_eq]
  push_cast
  ring_nf

section Search

variable {range : Interval} {exponent : Int} {decimal : Decimal}

/-- What is found on a grid rounds to the number. -/
theorem rounds_of_onGrid (found : onGrid range exponent = some decimal) : Rounds range decimal := by
  -- The neighbours of the number on the grid are tried, and only one that is held is taken.
  unfold onGrid at found
  dsimp only at found
  split at found
  · next both =>
    rw [Bool.and_eq_true] at both
    split at found <;> cases found
    · exact rounds_iff_holds.mpr both.1
    · exact rounds_iff_holds.mpr both.2
  · split at found
    · next below =>
      cases found
      exact rounds_iff_holds.mpr below
    · split at found
      · next above =>
        cases found
        exact rounds_iff_holds.mpr above
      · cases found

/-- A grid that is finer than an interval is wide has a decimal inside. -/
theorem exists_onGrid (low : range.low < range.value) (high : range.value < range.high)
    (fine : (4 * Binary64.unitsPerOne * 10 ^ exponent : ℚ) < range.high - range.low) :
    ∃ decimal, onGrid range exponent = some decimal := by
  have scaled := gridDenominator_pos exponent
  have stepped : 0 < 4 * Binary64.unitsPerOne * gridNumerator exponent :=
    Nat.mul_pos (Nat.mul_pos (by decide) Binary64.unitsPerOne_pos) (Nat.pow_pos (by decide))
  -- One step of the grid is shorter than the interval.
  have shorter : range.low * gridDenominator exponent +
      4 * Binary64.unitsPerOne * gridNumerator exponent < range.high * gridDenominator exponent := by
    have positive : (0 : ℚ) < gridDenominator exponent := by exact_mod_cast scaled
    rw [← grid_eq, ← mul_div_assoc, div_lt_iff₀ positive, sub_mul] at fine
    have counted : (range.low * gridDenominator exponent +
        4 * Binary64.unitsPerOne * gridNumerator exponent : ℚ) <
          range.high * gridDenominator exponent := by linarith
    exact_mod_cast counted
  unfold onGrid
  dsimp only
  generalize 4 * Binary64.unitsPerOne * gridNumerator exponent = step at *
  generalize gridDenominator exponent = scale at *
  have lowScaled : range.low * scale < range.value * scale := Nat.mul_lt_mul_of_pos_right low scaled
  have highScaled : range.value * scale < range.high * scale :=
    Nat.mul_lt_mul_of_pos_right high scaled
  have parts := Nat.div_add_mod (range.value * scale) step
  have rest := Nat.mod_lt (range.value * scale) stepped
  rw [Nat.mul_comm] at parts
  generalize range.value * scale / step = floor at *
  -- If both neighbours were outside, the step between them would span the interval.
  have either : range.holds scale (floor * step) = true ∨
      range.holds scale ((floor + 1) * step) = true := by
    unfold Interval.holds
    rw [Nat.add_one_mul floor]
    cases range.closed with
    | true =>
      simp only [if_true, decide_eq_true_eq]
      omega
    | false =>
      simp only [Bool.false_eq_true, if_false, decide_eq_true_eq]
      omega
  split
  · split <;> exact ⟨_, rfl⟩
  · split
    · exact ⟨_, rfl⟩
    · next notBelow =>
      rw [if_pos (either.resolve_left notBelow)]
      exact ⟨_, rfl⟩

/-- What is found on some grid rounds to the number. -/
theorem rounds_of_firstOnGrid {grids : Nat} (found : firstOnGrid range grids exponent = some decimal) :
    Rounds range decimal := by
  -- By induction on the grids, which are tried from the coarsest on.
  induction grids generalizing exponent with
  | zero => cases found
  | succ grids ih =>
    rw [firstOnGrid] at found
    split at found
    · next here =>
      cases found
      exact rounds_of_onGrid here
    · exact ih found

/-- The search ends no later than on the last grid. -/
theorem exists_firstOnGrid {grids : Nat}
    (last : ∃ decimal, onGrid range (exponent - grids) = some decimal) :
    ∃ decimal, firstOnGrid range (grids + 1) exponent = some decimal := by
  -- By induction on the grids: one that is passed over leaves the last one ahead.
  induction grids generalizing exponent with
  | zero =>
    obtain ⟨decimal, found⟩ := last
    rw [Nat.cast_zero, Int.sub_zero] at found
    exact ⟨decimal, by rw [firstOnGrid, found]⟩
  | succ grids ih =>
    rw [firstOnGrid]
    split
    · exact ⟨_, rfl⟩
    · refine ih ?_
      rw [show exponent - 1 - grids = exponent - (grids + 1 : Nat) by omega]
      exact last

/-- The search for the leading digit never passes the quotient. -/
theorem leadingExponent_le {numerator denominator steps : Nat} {guess : Int}
    (positive : 0 < denominator) (below : (10 : ℚ) ^ guess ≤ numerator / denominator) :
    (10 : ℚ) ^ leadingExponent numerator denominator steps guess ≤ numerator / denominator := by
  -- By induction on the steps: a step is taken only while the next power is not above.
  have divides : (0 : ℚ) < denominator := by exact_mod_cast positive
  induction steps generalizing guess with
  | zero => exact below
  | succ steps ih =>
    rw [leadingExponent]
    split
    · next reached =>
      refine ih ?_
      have scaled : (0 : ℚ) < gridDenominator (guess + 1) := by
        exact_mod_cast gridDenominator_pos (guess + 1)
      rw [← grid_eq, div_le_div_iff₀ scaled divides]
      exact_mod_cast reached
    · exact below

end Search

section Around

variable {significand exponent : Nat}

/-- The number lies strictly inside its interval, which is wider than its seventeenth digit. -/
theorem around_wide (canonical : Binary64.Canonical significand exponent) (some : 0 < significand) :
    let range := Interval.around significand exponent
    range.low < range.value ∧ range.value < range.high ∧
      (range.value : ℚ) < 10 ^ 16 * (range.high - range.low) := by
  intro range
  have unit : 0 < 2 ^ exponent := Nat.two_pow_pos exponent
  have more := @Interval.unit_le significand exponent some
  -- Below a power of two the interval is shorter, but the significand is the smallest one.
  have wide : range.low < range.value ∧ range.value < range.high ∧
      range.value + 10 ^ 16 * range.low < 10 ^ 16 * range.high := by
    rw [Interval.value_around, Interval.high_around, Interval.low_around]
    split
    · next power =>
      rw [power.1] at more ⊢
      omega
    · have small : significand * 2 ^ exponent < 2 ^ 53 * 2 ^ exponent :=
        Nat.mul_lt_mul_of_pos_right canonical.1 unit
      omega
  obtain ⟨below, above, counted⟩ := wide
  refine ⟨below, above, ?_⟩
  have cast : (range.value : ℚ) + 10 ^ 16 * range.low < 10 ^ 16 * range.high := by
    exact_mod_cast counted
  linarith

/-- The smallest number passes the power of ten at which the search for the leading digit begins. -/
theorem lowest_le (some : 0 < significand) :
    (10 : ℚ) ^ (-325 : Int) ≤
      (Interval.around significand exponent).value / (4 * Binary64.unitsPerOne : Nat) := by
  have enough : gridNumerator (-325) * Binary64.unitsPerOne ≤ gridDenominator (-325) := by
    decide +kernel
  have unit : 1 ≤ significand * 2 ^ exponent := Nat.mul_pos some (Nat.two_pow_pos exponent)
  have scaled := gridDenominator_pos (-325)
  have positive := Binary64.unitsPerOne_pos
  rw [← grid_eq, Interval.value_around]
  -- The units in one are too large a number to be computed with.
  generalize gridNumerator (-325) = numerator at *
  generalize gridDenominator (-325) = denominator at *
  generalize Binary64.unitsPerOne = units at *
  have counted : numerator * (4 * units) ≤ 4 * (significand * 2 ^ exponent) * denominator := by
    calc numerator * (4 * units) = 4 * (numerator * units) := by ring
      _ ≤ 4 * (significand * 2 ^ exponent * denominator) :=
        Nat.mul_le_mul_left 4 (enough.trans (Nat.le_mul_of_pos_left _ unit))
      _ = 4 * (significand * 2 ^ exponent) * denominator := by ring
  rw [div_le_div_iff₀ (by exact_mod_cast scaled) (by exact_mod_cast (by omega : 0 < 4 * units))]
  exact_mod_cast counted

/-- The shortest decimal of a number rounds to it. -/
theorem rounds_shortest (canonical : Binary64.Canonical significand exponent)
    (some : 0 < significand) :
    Rounds (Interval.around significand exponent) (shortest significand exponent) := by
  obtain ⟨below, above, wide⟩ := around_wide canonical some
  have divides : 0 < 4 * Binary64.unitsPerOne :=
    Nat.mul_pos (by decide) Binary64.unitsPerOne_pos
  have leading := @leadingExponent_le _ _ 640 (-325) divides (@lowest_le _ exponent some)
  unfold shortest
  dsimp only
  generalize leadingExponent _ _ 640 (-325) = exponent' at leading ⊢
  generalize Interval.around significand exponent = range at *
  -- Sixteen places behind the leading digit the grid is finer than the interval.
  have fine : (4 * Binary64.unitsPerOne * 10 ^ (exponent' - (16 : Nat)) : ℚ) <
      range.high - range.low := by
    have positive : (0 : ℚ) < (4 * Binary64.unitsPerOne : Nat) := by exact_mod_cast divides
    rw [le_div_iff₀ positive] at leading
    rw [zpow_sub₀ (by norm_num), zpow_natCast, ← mul_div_assoc, div_lt_iff₀ (by norm_num)]
    push_cast at leading
    linarith
  obtain ⟨decimal, found⟩ := exists_firstOnGrid (exists_onGrid below above fine)
  rw [found, Option.getD_some]
  exact rounds_of_firstOnGrid found

section Reading

variable {digits : Nat} {power : Int} {negative : Bool}

/-- No decimal of a number has a power of ten so large that it is read as infinity. -/
theorem power_le (canonical : Binary64.Canonical significand exponent) (some : 0 < digits)
    (rounds : Rounds (Interval.around significand exponent) ⟨digits, power⟩) : power ≤ 400 := by
  by_contra large
  obtain ⟨-, below⟩ := Interval.bounds_of_holds (rounds_iff_holds.mp rounds)
  have whole : gridDenominator power = 1 := gridDenominator_eq_one (by omega)
  -- The interval ends where binary64 does, which is below this power of ten.
  have least : gridNumerator 401 ≤ gridNumerator power :=
    Nat.pow_le_pow_right (by decide) (by omega)
  have powers : ∀ lower higher : Nat, lower ≤ higher → 2 ^ lower ≤ 2 ^ higher :=
    fun _ _ => Nat.pow_le_pow_right Nat.two_pos
  have unit := powers exponent 2045 canonical.2.1
  have small : significand * 2 ^ exponent ≤ 2 ^ 53 * 2 ^ exponent :=
    Nat.mul_le_mul_right _ (Nat.le_of_lt canonical.1)
  have huge : 2 ^ 56 * 2 ^ 2045 < 4 * Binary64.unitsPerOne * gridNumerator 401 := by
    decide +kernel
  have scaled := Nat.mul_le_mul_left (4 * Binary64.unitsPerOne) least
  have counted := Nat.le_mul_of_pos_left (4 * Binary64.unitsPerOne * gridNumerator power) some
  rw [Interval.high_around, whole, Nat.mul_one] at below
  generalize 2 ^ 2045 = largest at unit huge
  omega

/-- No decimal of a number has a power of ten so small that it is read as zero. -/
theorem le_power (some : 0 < significand)
    (rounds : Rounds (Interval.around significand exponent) ⟨digits, power⟩) :
    -(400 + Nat.log2 digits : Int) ≤ power := by
  by_contra small
  obtain ⟨above, -⟩ := Interval.bounds_of_holds (rounds_iff_holds.mp rounds)
  have whole : gridNumerator power = 1 := gridNumerator_eq_one (by omega)
  -- The interval begins above zero, and the digits do not make up for the power of ten.
  have least : gridDenominator (-401) * 2 ^ Nat.log2 digits ≤ gridDenominator power := by
    calc gridDenominator (-401) * 2 ^ Nat.log2 digits
        ≤ gridDenominator (-401) * 10 ^ Nat.log2 digits :=
          Nat.mul_le_mul_left _ (Nat.pow_le_pow_left (by decide) _)
      _ ≤ gridDenominator power := by
        rw [gridDenominator, gridDenominator, ← Nat.pow_add]
        exact Nat.pow_le_pow_right (by decide) (by omega)
  have few : digits < 2 * 2 ^ Nat.log2 digits := by
    have := @Nat.lt_log2_self digits
    rw [Nat.pow_succ] at this
    omega
  -- At that power of ten the whole grid is finer than the smallest interval.
  have huge : 2 * (4 * Binary64.unitsPerOne) < gridDenominator (-401) := by decide +kernel
  have positive := Nat.le_mul_of_pos_left (gridDenominator power)
    (@Interval.low_around_pos _ exponent some)
  -- The digits, counted in units, would be below themselves.
  have counted : digits * (4 * Binary64.unitsPerOne) < digits * (4 * Binary64.unitsPerOne) := by
    calc digits * (4 * Binary64.unitsPerOne)
        < 2 * 2 ^ Nat.log2 digits * (4 * Binary64.unitsPerOne) :=
          Nat.mul_lt_mul_of_pos_right few
            (Nat.mul_pos (show 0 < 4 by decide) Binary64.unitsPerOne_pos)
      _ = 2 * (4 * Binary64.unitsPerOne) * 2 ^ Nat.log2 digits := by ring
      _ ≤ gridDenominator (-401) * 2 ^ Nat.log2 digits :=
        Nat.mul_le_mul_right _ (Nat.le_of_lt huge)
      _ ≤ (Interval.around significand exponent).low * gridDenominator power :=
        least.trans positive
      _ ≤ digits * (4 * Binary64.unitsPerOne) := by
        rwa [whole, Nat.mul_one] at above
  exact Nat.lt_irrefl _ counted

/-- A decimal that rounds to a number other than zero has a digit other than zero. -/
theorem digits_pos {decimal : Decimal} (some : 0 < significand)
    (rounds : Rounds (Interval.around significand exponent) decimal) : 0 < decimal.digits := by
  -- The interval around the number begins above zero, so zero is outside.
  obtain ⟨above, -⟩ := Interval.bounds_of_holds (rounds_iff_holds.mp rounds)
  have low := Nat.mul_pos (@Interval.low_around_pos _ exponent some)
    (gridDenominator_pos decimal.exponent)
  by_contra none
  rw [show decimal.digits = 0 by omega, Nat.zero_mul] at above
  omega

/-- Every decimal that rounds to a number is read as that number. -/
theorem ofDecimal_of_rounds (canonical : Binary64.Canonical significand exponent)
    (some : 0 < significand)
    (rounds : Rounds (Interval.around significand exponent) ⟨digits, power⟩) :
    Binary64.ofDecimal negative digits power = .finite negative significand exponent canonical := by
  have held := rounds_iff_holds.mp rounds
  have filled : 0 < digits := digits_pos some rounds
  have least := le_power some rounds
  have most := power_le canonical filled rounds
  unfold Binary64.ofDecimal
  rw [if_neg (by omega), if_neg (by omega), if_neg (by omega)]
  -- Either the numerator or the denominator takes the power of ten.
  split
  · next whole =>
    refine Binary64.round_of_holds canonical some Nat.one_pos ?_
    rw [gridDenominator_eq_one whole] at held
    rw [show 4 * (digits * 10 ^ power.toNat * Binary64.unitsPerOne) =
      digits * (4 * Binary64.unitsPerOne * gridNumerator power) by rw [gridNumerator]; ring]
    exact held
  · next part =>
    refine Binary64.round_of_holds canonical some (gridDenominator_pos power) ?_
    rw [gridNumerator_eq_one (by omega), Nat.mul_one] at held
    rw [show 4 * (digits * Binary64.unitsPerOne) = digits * (4 * Binary64.unitsPerOne) by ring]
    exact held

/-- Every decimal with the value of the shortest one is read as the number. -/
theorem ofDecimal_of_value_eq {decimal : Decimal}
    (canonical : Binary64.Canonical significand exponent) (some : 0 < significand)
    (same : decimal.value = (shortest significand exponent).value) :
    Binary64.ofDecimal negative decimal.digits decimal.exponent =
      .finite negative significand exponent canonical := by
  have rounds := rounds_shortest canonical some
  unfold Rounds at rounds
  rw [← same] at rounds
  exact ofDecimal_of_rounds canonical some rounds

end Reading

end Around

end Decimal
end TrialScript
