import TrialScript.Proofs.Numeric.Overflow
import TrialScript.Proofs.Numeric.Unrounded

/-! Whole numbers of at most fifty-three bits: binary64 holds each of them, and sums of them are exact. -/

namespace TrialScript

namespace Binary64

variable {x y : Binary64} {whole other place : Nat} {negative negativeZero : Bool}

/-- A count of at most fifty-three bits and some places behind them has no finer last place. -/
theorem exponentOf_le_place (small : whole < 2 ^ 53) : exponentOf (whole * 2 ^ place) 1 ≤ place := by
  have leading : (whole * 2 ^ place).log2 < 53 + place := by
    rcases Nat.eq_zero_or_pos (whole * 2 ^ place) with none | some
    · -- Nothing has no leading bit at all.
      rw [none, Nat.log2_zero]
      omega
    · refine (Nat.log2_lt (by omega)).mpr ?_
      rw [Nat.pow_add]
      exact Nat.mul_lt_mul_of_pos_right small (Nat.two_pow_pos place)
  rw [exponentOf, Nat.div_one]
  omega

/-- A count of at most fifty-three bits and some places behind them needs no rounding. -/
theorem magnitude_round_bits (small : whole < 2 ^ 53)
    (finite : (round negative (whole * 2 ^ place) 1).isFinite = true) :
    (round negative (whole * 2 ^ place) 1).magnitude = whole * 2 ^ place := by
  -- The count is a multiple of its last place, which is rounded to itself.
  have multiple : whole * 2 ^ place =
      whole * 2 ^ (place - exponentOf (whole * 2 ^ place) 1) *
        2 ^ exponentOf (whole * 2 ^ place) 1 := by
    rw [Nat.mul_assoc, ← Nat.pow_add, Nat.sub_add_cancel (exponentOf_le_place small)]
  rw [magnitude_round finite, Nat.one_mul]
  generalize exponentOf (whole * 2 ^ place) 1 = last at multiple ⊢
  rw [multiple, nearestEven_mul (Nat.two_pow_pos last)]

/-- Without a sign the units of a number are its distance from zero. -/
theorem units_eq_magnitude (unsigned : x.isNegative = false) : x.units = x.magnitude := by
  rw [units, unsigned]
  rfl

/-- A number is exactly a whole number, of either sign where it is zero. -/
def Counts (x : Binary64) (whole : Nat) : Prop :=
  x.isFinite = true ∧ x.units = whole * unitsPerOne

/-- The place of a finite number is its count of units. -/
theorem place?_of_isFinite (finite : x.isFinite = true) : x.place? = some (.point x.units) := by
  cases x with
  | nan | infinite => cases finite
  | finite => rfl

/-- Only finite numbers have a point for a place. -/
theorem of_place?_point {units : Int} (placed : x.place? = some (.point units)) :
    x.isFinite = true ∧ x.units = units := by
  -- The two infinities stand at the ends of the line, and an undefined number nowhere.
  cases x with
  | nan => cases placed
  | infinite negative => cases negative <;> cases placed
  | finite =>
    cases placed
    exact ⟨rfl, rfl⟩

/-- Finite numbers are in the order of their units. -/
theorem atMost_iff_units (finite : x.isFinite = true) (finite' : y.isFinite = true) :
    (Number.float x).atMost (.float y) = true ↔ x.units ≤ y.units := by
  have left : (Number.float x).place? = _ := place?_of_isFinite finite
  have right : (Number.float y).place? = _ := place?_of_isFinite finite'
  rw [Number.atMost_iff, left, right]
  simp [Place.before, Int.le_iff_lt_or_eq]

/-- A count of units with at most fifty-three bits and some places behind them is rounded to itself. -/
theorem units_ofUnits_bits {total : Int} (small : whole < 2 ^ 53)
    (bits : total.natAbs = whole * 2 ^ place)
    (finite : (ofUnits negativeZero total).isFinite = true) :
    (ofUnits negativeZero total).units = total := by
  by_cases none : total = 0
  · -- Zero has no units, whichever its sign.
    subst none
    cases negativeZero <;> rfl
  · rw [units_ofUnits]
    rw [ofUnits_of_ne_zero none, bits] at finite ⊢
    rw [magnitude_round_bits small finite, ← bits]
    split <;> omega

/-- A whole number of at most fifty-three bits is rounded to itself. -/
theorem counts_ofUnits (small : whole < 2 ^ 53) :
    (ofUnits negativeZero (whole * unitsPerOne)).Counts whole := by
  -- So few bits leave a place for each unit of the sum, and nothing is rounded away.
  have total : (whole * unitsPerOne : Int).natAbs = whole * unitsPerOne := by
    rw [Int.natAbs_mul, Int.natAbs_natCast, Int.natAbs_natCast]
  have below := (zero false).magnitude_add_lt small
  have finite := @isFinite_ofUnits negativeZero (whole * unitsPerOne) (by omega)
  obtain ⟨place, -, places⟩ := unitsPerOne_eq
  exact ⟨finite, units_ofUnits_bits small (total.trans (congrArg _ places)) finite⟩

/-- The nearest number to a whole number of at most fifty-three bits is that number. -/
theorem counts_ofInt (small : whole < 2 ^ 53) : (ofInt whole).Counts whole :=
  counts_ofUnits small

/-- The sum of two whole numbers is exact as long as it has at most fifty-three bits. -/
theorem Counts.add (left : x.Counts whole) (right : y.Counts other)
    (small : whole + other < 2 ^ 53) : (x.add y).Counts (whole + other) := by
  obtain ⟨finiteLeft, unitsLeft⟩ := left
  obtain ⟨finiteRight, unitsRight⟩ := right
  -- Of two finite numbers the units are added and then rounded.
  have total : x.units + y.units = ((whole + other : Nat) : Int) * unitsPerOne := by
    rw [unitsLeft, unitsRight, Int.natCast_add, Int.add_mul]
  rw [add_of_isFinite finiteLeft finiteRight, total]
  exact counts_ofUnits small

end Binary64

namespace Number

variable {n : Number} {whole : Nat}

/-- A number that equals a whole number of at most fifty-three bits converts to it exactly. -/
theorem counts_of_equals (same : n.equals (.int whole) = true) (small : whole < 2 ^ 53) :
    ∃ x : Binary64, n.toFloat = .ok x ∧ x.Counts whole := by
  obtain ⟨place, left, right⟩ := equals_iff.mp same
  cases right
  cases n with
  | float value => exact ⟨value, rfl, Binary64.of_place?_point left⟩
  | int value =>
    -- Both integers have the same units, so they are the same.
    have positive := Binary64.unitsPerOne_pos
    have equal : value = whole := by
      simp only [place?, Option.some.injEq, Place.point.injEq] at left
      exact Int.eq_of_mul_eq_mul_right (by omega) left
    subst equal
    have counts := Binary64.counts_ofInt small
    exact ⟨_, toFloat_int (Binary64.isFinite_iff.mp counts.1).2, counts⟩

end Number
end TrialScript
