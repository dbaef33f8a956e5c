import Mathlib.Tactic.Ring
import TrialScript.Numeric.Decimal
import TrialScript.Proofs.Numeric.Overflow

/-! Rounding intervals: every quotient between the halfway points around a number rounds to it. -/

namespace TrialScript

namespace Decimal

section Grids

variable {exponent : Int}

/-- The denominator of a grid is a power of ten or one. -/
theorem gridDenominator_pos (exponent : Int) : 0 < gridDenominator exponent :=
  Nat.pow_pos (by decide)

/-- Above the point every step of a grid is whole. -/
theorem gridDenominator_eq_one (whole : 0 ≤ exponent) : gridDenominator exponent = 1 := by
  rw [gridDenominator, Int.toNat_of_nonpos (by omega), Nat.pow_zero]

/-- Below the point a grid is made of equal parts of one. -/
theorem gridNumerator_eq_one (part : exponent ≤ 0) : gridNumerator exponent = 1 := by
  rw [gridNumerator, Int.toNat_of_nonpos part, Nat.pow_zero]

end Grids

namespace Interval

variable {significand exponent : Nat}

/-- The middle of the interval around a number is the number, counted in quarters. -/
theorem value_around : (around significand exponent).value = 4 * (significand * 2 ^ exponent) :=
  Nat.mul_assoc _ _ _

/-- The interval reaches halfway to the next number. -/
theorem high_around : (around significand exponent).high =
    4 * (significand * 2 ^ exponent) + 2 * 2 ^ exponent :=
  congrArg (· + _) (Nat.mul_assoc _ _ _)

/-- The interval begins halfway to the number before, which is nearer below a power of two. -/
theorem low_around : (around significand exponent).low = 4 * (significand * 2 ^ exponent) -
    if significand = 2 ^ 52 ∧ exponent ≠ 0 then 2 ^ exponent else 2 * 2 ^ exponent :=
  congrArg (· - _) (Nat.mul_assoc _ _ _)

/-- The unit of a positive number is no larger than the number. -/
theorem unit_le (some : 0 < significand) : 2 ^ exponent ≤ significand * 2 ^ exponent :=
  Nat.le_mul_of_pos_left _ some

/-- The interval around a number lies above zero. -/
theorem low_around_pos (some : 0 < significand) : 0 < (around significand exponent).low := by
  have unit : 0 < 2 ^ exponent := Nat.two_pow_pos exponent
  have more := @unit_le significand exponent some
  rw [low_around]
  split <;> omega

/-- A held point is no less than the lower end of the interval and no more than the upper one. -/
theorem bounds_of_holds {range : Interval} {scale point : Nat}
    (held : range.holds scale point = true) :
    range.low * scale ≤ point ∧ point ≤ range.high * scale := by
  unfold holds at held
  split at held <;> rw [decide_eq_true_eq] at held <;> omega

end Interval

end Decimal

namespace Binary64

/-- A quotient rounds to a whole number within half of one, and from halfway on to an even one. -/
theorem nearestEven_eq {whole numerator denominator : Nat} (divides : 0 < denominator)
    (above : 2 * (whole * denominator) ≤ 2 * numerator + denominator)
    (below : 2 * numerator ≤ 2 * (whole * denominator) + denominator)
    (inside : whole % 2 = 1 → 2 * (whole * denominator) < 2 * numerator + denominator ∧
      2 * numerator < 2 * (whole * denominator) + denominator) :
    nearestEven numerator denominator = whole := by
  have parts := Nat.div_add_mod numerator denominator
  have rest := Nat.mod_lt numerator divides
  unfold nearestEven
  dsimp only
  generalize numerator / denominator = floor at *
  generalize numerator % denominator = left at *
  rw [Nat.mul_comm] at parts
  -- The whole number is the integer part or one more, as any other is too far away.
  rcases Nat.lt_trichotomy whole floor with smaller | rfl | larger
  · have far : (whole + 1) * denominator ≤ floor * denominator := Nat.mul_le_mul_right _ smaller
    rw [Nat.add_one_mul whole] at far
    omega
  · split
    · rfl
    · split <;> omega
  · have far : (floor + 1) * denominator ≤ whole * denominator := Nat.mul_le_mul_right _ larger
    -- Two steps farther on the numerator would be more than half a denominator away.
    have next : whole = floor + 1 := by
      by_contra other
      have farther : (floor + 2) * denominator ≤ whole * denominator :=
        Nat.mul_le_mul_right _ (by omega)
      rw [Nat.add_mul] at farther
      omega
    subst next
    rw [Nat.add_one_mul floor] at above below inside
    split
    · omega
    · split <;> omega

section Around

variable {significand exponent numerator denominator : Nat}

/-- A quotient in the interval around a number is at most half of its last place away from it. -/
theorem of_holds (some : 0 < significand)
    (held : (Decimal.Interval.around significand exponent).holds denominator (4 * numerator) = true) :
    let place := denominator * 2 ^ exponent
    2 * (significand * place) ≤ 2 * numerator + place ∧
      2 * numerator ≤ 2 * (significand * place) + place ∧
      (significand % 2 = 1 → 2 * (significand * place) < 2 * numerator + place ∧
        2 * numerator < 2 * (significand * place) + place) ∧
      (significand = 2 ^ 52 → exponent ≠ 0 →
        4 * (significand * place) ≤ 4 * numerator + place) := by
  -- The interval is written in quarters of the last place, and below a power of two its lower half
  -- is half as wide.
  intro place
  have value : 4 * significand * 2 ^ exponent * denominator = 4 * (significand * place) := by ring
  have unit : 2 ^ exponent * denominator = place := Nat.mul_comm _ _
  have enough : 2 ^ exponent * denominator ≤ significand * place :=
    unit ▸ Nat.le_mul_of_pos_left place some
  simp only [Decimal.Interval.holds, Decimal.Interval.around, beq_iff_eq, Nat.add_mul, Nat.mul_assoc 2,
    Nat.sub_mul, value, unit] at held
  by_cases power : significand = 2 ^ 52 ∧ exponent ≠ 0
  · simp only [if_pos power] at held
    split at held
    · simp only [decide_eq_true_eq, unit] at held
      omega
    · omega
  · simp only [if_neg power] at held
    split at held
    · simp only [decide_eq_true_eq, unit, Nat.mul_assoc] at held
      omega
    · simp only [decide_eq_true_eq, unit, Nat.mul_assoc] at held
      omega

/-- A coarser place is at least twice as large. -/
theorem two_mul_place_le {low high : Nat} (less : low < high) :
    2 * (denominator * 2 ^ low) ≤ denominator * 2 ^ high := by
  calc 2 * (denominator * 2 ^ low) = denominator * 2 ^ (low + 1) := by ring
    _ ≤ denominator * 2 ^ high := Nat.mul_le_mul_left _ (Nat.pow_le_pow_right Nat.two_pos less)

/-- A quotient with a finer place than the number is just below a power of two, and is carried to it. -/
theorem carries_of_finer {finer : Nat} (canonical : Canonical significand exponent)
    (divides : 0 < denominator) (less : finer < exponent)
    (under : numerator < 2 ^ 53 * (denominator * 2 ^ finer))
    (held : (Decimal.Interval.around significand exponent).holds denominator (4 * numerator) = true) :
    significand = 2 ^ 52 ∧ exponent = finer + 1 ∧
      nearestEven numerator (denominator * 2 ^ finer) = 2 ^ 53 := by
  have filled := canonical.2.2
  obtain ⟨above, below, -, lowest⟩ := of_holds (by omega) held
  have positive : 0 < denominator * 2 ^ exponent := Nat.mul_pos divides (Nat.two_pow_pos _)
  have half := @two_mul_place_le denominator _ _ less
  -- Any larger significand would be too far above the quotient.
  have power : significand = 2 ^ 52 := by
    by_contra other
    have more : (2 ^ 52 + 1) * (denominator * 2 ^ exponent) ≤
        significand * (denominator * 2 ^ exponent) := Nat.mul_le_mul_right _ (by omega)
    omega
  have close := lowest power (by omega)
  rw [power] at close
  -- So would the number be if its place were coarser by more than one step.
  have next : exponent = finer + 1 := by
    by_contra other
    have quarter := @two_mul_place_le denominator _ _ (show finer + 1 < exponent by omega)
    have doubled := @two_mul_place_le denominator _ _ (Nat.lt_add_one finer)
    omega
  have twice : denominator * 2 ^ exponent = 2 * (denominator * 2 ^ finer) := by
    rw [next]
    ring
  refine ⟨power, next, nearestEven_eq (by omega) (by omega) (by omega) fun odd => ?_⟩
  exact absurd odd (by decide)

/-- Every quotient in the interval around a number rounds to that number. -/
theorem round_of_holds {negative : Bool} (canonical : Canonical significand exponent)
    (some : 0 < significand) (divides : 0 < denominator)
    (held : (Decimal.Interval.around significand exponent).holds denominator (4 * numerator) = true) :
    round negative numerator denominator = .finite negative significand exponent canonical := by
  obtain ⟨above, below, inside, -⟩ := of_holds some held
  have small := canonical.1
  have positive : 0 < denominator * 2 ^ exponent := Nat.mul_pos divides (Nat.two_pow_pos _)
  have under : numerator < 2 ^ 53 * (denominator * 2 ^ exponentOf numerator denominator) :=
    quotient_lt divides
  unfold round
  dsimp only
  -- The last place of the quotient is that of the number, or the next finer one below a power of two.
  rcases Nat.lt_trichotomy (exponentOf numerator denominator) exponent with finer | same | coarser
  · obtain ⟨power, next, carried⟩ := carries_of_finer canonical divides finer under held
    simp only [carried, if_true, ← next, ← power, dif_pos canonical]
  · have reached : nearestEven numerator (denominator * 2 ^ exponent) = significand :=
      nearestEven_eq positive above below inside
    simp only [same, reached, if_neg (Nat.ne_of_lt small), dif_pos canonical]
  · -- A coarser place would need a quotient that is twice as large.
    have doubled := @two_mul_place_le denominator _ _ coarser
    have reaches := leading_le (Nat.zero_lt_of_lt coarser) divides
    have most : significand * (denominator * 2 ^ exponent) ≤
        (2 ^ 53 - 1) * (denominator * 2 ^ exponent) := Nat.mul_le_mul_right _ (by omega)
    omega

end Around

end Binary64
end TrialScript
