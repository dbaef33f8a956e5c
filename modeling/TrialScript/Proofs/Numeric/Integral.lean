import TrialScript.Proofs.Numeric.Defined
import TrialScript.Proofs.Numeric.Whole

/-! Whole numbers of any size: rounding leaves them whole, and so does all arithmetic but division. -/

namespace TrialScript

namespace Binary64

variable {x y : Binary64} {negative negativeZero : Bool} {whole denominator : Nat} {count : Int}

/-- A number is whole if it is finite and its distance from zero is a number of ones. -/
theorem isIntegral_iff :
    x.isIntegral = true ↔ x.isFinite = true ∧ ∃ whole, x.magnitude = whole * unitsPerOne := by
  -- A distance that one divides is a number of ones, and conversely.
  rw [isIntegral, Bool.and_eq_true, beq_iff_eq, ← Nat.dvd_iff_mod_eq_zero]
  refine and_congr_right fun _ => ⟨?_, ?_⟩
  · intro divides
    exact ⟨_, (Nat.div_mul_cancel divides).symm⟩
  · intro found
    obtain ⟨whole, distance⟩ := found
    exact ⟨whole, distance.trans (Nat.mul_comm _ _)⟩

/-- The units of a whole number are those of a number of ones, of either sign. -/
theorem units_of_isIntegral (integral : x.isIntegral = true) :
    ∃ count : Int, x.units = count * unitsPerOne := by
  -- The sign goes to the number of ones.
  obtain ⟨-, whole, distance⟩ := isIntegral_iff.mp integral
  rw [units, distance]
  split
  · exact ⟨-whole, by rw [Int.natCast_mul, Int.neg_mul]⟩
  · exact ⟨whole, Int.natCast_mul _ _⟩

/-- A quotient that comes to a number of ones is rounded to a whole number, unless it is infinite. -/
theorem isIntegral_round (divides : 0 < denominator) :
    (round negative (whole * unitsPerOne * denominator) denominator).isIntegral = true ∨
      (round negative (whole * unitsPerOne * denominator) denominator).isInfinite = true := by
  cases unbounded : (round negative (whole * unitsPerOne * denominator) denominator).isInfinite with
  | true => exact .inr rfl
  | false =>
    have finite := isFinite_iff.mpr ⟨isNaN_round, unbounded⟩
    refine .inl (isIntegral_iff.mpr ⟨finite, ?_⟩)
    rw [magnitude_round finite]
    obtain ⟨place, -, places⟩ := unitsPerOne_eq
    generalize exponentOf (whole * unitsPerOne * denominator) denominator = exponent
    rcases Nat.le_total place exponent with coarser | finer
    · -- A last place that is no finer than one is a number of ones itself.
      generalize nearestEven _ _ = steps
      refine ⟨steps * 2 ^ (exponent - place), ?_⟩
      rw [places, Nat.mul_assoc, ← Nat.pow_add, Nat.sub_add_cancel coarser]
    · -- In finer places than one there is nothing to be rounded.
      have exactly : whole * unitsPerOne * denominator =
          whole * 2 ^ (place - exponent) * (denominator * 2 ^ exponent) := by
        rw [places, ← Nat.sub_add_cancel finer, Nat.pow_add, Nat.add_sub_cancel]
        ac_rfl
      have positive := Nat.mul_pos divides (Nat.two_pow_pos exponent)
      refine ⟨whole, ?_⟩
      rw [exactly, nearestEven_mul positive, Nat.mul_assoc, ← Nat.pow_add,
        Nat.sub_add_cancel finer, places]

/-- A number of ones is rounded to a whole number, unless it is infinite. -/
theorem isIntegral_ofUnits : (ofUnits negativeZero (count * unitsPerOne)).isIntegral = true ∨
    (ofUnits negativeZero (count * unitsPerOne)).isInfinite = true := by
  -- Zero is whole as it stands; anything else is rounded from a whole number of units.
  by_cases zero : count * unitsPerOne = 0
  · rw [zero]
    exact .inl (isIntegral_iff.mpr ⟨rfl, 0, by rw [Nat.zero_mul]; rfl⟩)
  · have rounded := @isIntegral_round (decide (count * (unitsPerOne : Int) < 0)) count.natAbs 1
      Nat.one_pos
    rw [Nat.mul_one] at rounded
    rwa [ofUnits_of_ne_zero zero, Int.natAbs_mul, Int.natAbs_natCast]

section Kept

variable (first : x.isIntegral = true) (second : y.isIntegral = true)

include first second

/-- The sum of two whole numbers is whole, unless it is infinite. -/
theorem isIntegral_add : (x.add y).isIntegral = true ∨ (x.add y).isInfinite = true := by
  -- The units of the sum are those of a number of ones before they are rounded.
  obtain ⟨m, left⟩ := units_of_isIntegral first
  obtain ⟨n, right⟩ := units_of_isIntegral second
  rw [add_of_isFinite (isIntegral_iff.mp first).1 (isIntegral_iff.mp second).1, left, right,
    ← Int.add_mul]
  exact isIntegral_ofUnits

/-- The difference of two whole numbers is whole, unless it is infinite. -/
theorem isIntegral_sub : (x.sub y).isIntegral = true ∨ (x.sub y).isInfinite = true := by
  refine isIntegral_add first ?_
  cases y <;> exact second

/-- The product of two whole numbers is whole, unless it is infinite. -/
theorem isIntegral_mul : (x.mul y).isIntegral = true ∨ (x.mul y).isInfinite = true := by
  -- A product of units counts the one twice, and rounding divides by it once.
  obtain ⟨finite, m, left⟩ := isIntegral_iff.mp first
  obtain ⟨finite', n, right⟩ := isIntegral_iff.mp second
  have product : x.magnitude * y.magnitude = m * n * unitsPerOne * unitsPerOne := by
    rw [left, right, Nat.mul_mul_mul_comm, Nat.mul_assoc (m * n)]
  rw [mul_of_isFinite finite finite', product]
  exact isIntegral_round unitsPerOne_pos

/-- The remainder of two whole numbers is whole, unless it is taken over zero. -/
theorem isIntegral_rem (some : y.isZero = false) :
    (x.rem y).isIntegral = true ∨ (x.rem y).isInfinite = true := by
  -- The common factor of both units is one of their remainder.
  obtain ⟨finite, m, left⟩ := isIntegral_iff.mp first
  obtain ⟨finite', n, right⟩ := isIntegral_iff.mp second
  have rest : x.magnitude % y.magnitude = m % n * unitsPerOne * 1 := by
    rw [left, right, Nat.mul_mod_mul_right, Nat.mul_one]
  rw [rem_of_isFinite finite finite' some, rest]
  exact isIntegral_round Nat.one_pos

end Kept

end Binary64

namespace Number

variable {left right n : Number}

/-- A whole number of either kind. -/
def Integral : Number → Prop
  | .int _ => True
  | .float x => x.isIntegral = true

/-- A whole number that fits into binary64 is rounded to a whole number. -/
theorem Integral.toFloat {x : Binary64} (integral : n.Integral) (converts : n.toFloat = .ok x) :
    x.isIntegral = true := by
  rcases of_toFloat converts with rfl | ⟨value, rfl, rfl, bounded⟩
  · exact integral
  · exact Binary64.isIntegral_ofUnits.resolve_right (by rw [bounded]; exact Bool.false_ne_true)

/-- An operation that keeps whole numbers whole does so for numbers of both kinds. -/
theorem Integral.combine {exactly : Int → Int → Int} {rounded : Binary64 → Binary64 → Binary64}
    {result : Number}
    (keeps : ∀ {x y}, x.isIntegral = true → y.isIntegral = true →
      (rounded x y).isIntegral = true ∨ (rounded x y).isInfinite = true)
    (first : left.Integral) (second : right.Integral)
    (gave : Number.combine exactly rounded left right = .ok result) :
    result.Integral ∨ result.isInfinite = true := by
  rcases combine_ok gave with ⟨a, b, rfl, rfl, rfl⟩ | ⟨x, y, converts, converts', rfl, -⟩
  · exact .inl trivial
  · exact keeps (first.toFloat converts) (second.toFloat converts')

/-- The remainder of whole numbers is whole, unless it is taken over zero. -/
theorem Integral.remainder {result : Number} (some : right.isZero = false)
    (first : left.Integral) (second : right.Integral)
    (gave : left.remainder right = .ok result) : result.Integral ∨ result.isInfinite = true := by
  -- Two integers have an integer remainder; other numbers are converted, and stay whole.
  rw [Number.remainder_eq, if_neg (by simp [some])] at gave
  split at gave
  · cases gave
    exact .inl trivial
  · obtain ⟨x, converts, gave⟩ := check_bind_ok gave
    obtain ⟨y, converts', gave⟩ := check_bind_ok gave
    dsimp only at gave
    split at gave <;> cases gave
    exact Binary64.isIntegral_rem (first.toFloat converts) (second.toFloat converts')
      (isZero_toFloat some converts')

/-- All arithmetic but division makes whole numbers, or infinite ones, of whole numbers. -/
theorem Integral.apply {function : Arithmetic} {result : Number} (noQuotient : function ≠ .divide)
    (some : function = .remainder → right.isZero = false)
    (first : left.Integral) (second : right.Integral)
    (gave : function.apply left right = .ok result) :
    result.Integral ∨ result.isInfinite = true := by
  -- One case for each function; the two extremes give one of their operands.
  cases function with
  | add => exact first.combine Binary64.isIntegral_add second gave
  | subtract => exact first.combine Binary64.isIntegral_sub second gave
  | multiply => exact first.combine Binary64.isIntegral_mul second gave
  | divide => exact absurd rfl noQuotient
  | remainder => exact first.remainder (some rfl) second gave
  | least =>
    cases gave
    rcases least_cases left right with same | same <;> rw [same] <;> exact .inl (by assumption)
  | greatest =>
    cases gave
    rcases greatest_cases left right with same | same <;> rw [same] <;> exact .inl (by assumption)

end Number
end TrialScript
