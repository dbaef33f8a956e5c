import TrialScript.Proofs.Evaluation.Machine
import TrialScript.Proofs.Numeric.Defined

/-! Division and remainder in scripts: over zero both give numbers, and what else a remainder needs. -/

namespace TrialScript

/-- A number that is no large integer: one of binary64, or an integer below half of its range. -/
def Number.Moderate : Number → Prop
  | .int value => value.natAbs < 2 ^ 1023
  | .float _ => True

namespace Number.Moderate

variable {left right n : Number}

/-- A number that is no large integer fits in binary64. -/
theorem fits (moderate : n.Moderate) : n.Fits := by
  cases n with
  | float x => trivial
  | int value => exact Nat.lt_of_lt_of_le moderate Binary64.below_limit

/-- Any two of these numbers have a quotient. -/
theorem divides (dividend : left.Moderate) (divisor : right.Moderate) : left.Divides right := by
  cases left with
  | float x => cases right <;> exact ⟨dividend.fits, divisor.fits⟩
  | int a =>
    cases right with
    | float y => exact ⟨dividend.fits, divisor.fits⟩
    | int b =>
      -- No divisor but zero is smaller than one, and zero counts as one here.
      have least : 1 ≤ max b.natAbs 1 := Nat.le_max_right _ _
      calc a.natAbs < Binary64.limit := dividend.fits
        _ ≤ Binary64.limit * max b.natAbs 1 := Nat.le_mul_of_pos_right _ least

end Number.Moderate

/-- A calculation applies its function to the numbers that both sides give. -/
theorem run_calculate {op : Calculation} {left right : Tree} {x y : Number}
    {before middle after : Trial} (givesLeft : (evaluate left).run before = (.ok (.num x), middle))
    (givesRight : (evaluate right).run middle = (.ok (.num y), after)) :
    (evaluate (.binary (.calculate op) left right)).run before =
      (Value.num <$> op.function.apply x y, after) := by
  -- A trial that had returned would have given null for the left side.
  have running : before.returned = false := by
    rw [← Bool.not_eq_true]
    intro returned
    rw [evaluate_of_returned left returned] at givesLeft
    cases givesLeft
  -- The left side is asked for a number before the right one is evaluated.
  have admitted : BinaryOp.admit (.num x) (.calculate op) = .ok () := rfl
  have applied : BinaryOp.apply (.num x) (.num y) (.calculate op) =
      Value.num <$> op.function.apply x y := by
    rw [map_eq_pure_bind]
    rfl
  rw [evaluate, run_unlessReturned running, Stateful.run_bind, givesLeft]
  simp only [admitted, Stateful.lift_ok, pure_bind, Stateful.run_bind, givesRight, applied,
    Stateful.run_lift]

/--
Division never stops on numbers, and the remainder only does for an infinite dividend.

Over zero a quotient is infinite, or undefined where the dividend is zero or undefined itself, and
a remainder is undefined. An infinite number has no remainder over a number that is neither.
-/
theorem evaluate_division {left right : Tree} {x y : Number} {before middle after : Trial}
    (givesLeft : (evaluate left).run before = (.ok (.num x), middle))
    (givesRight : (evaluate right).run middle = (.ok (.num y), after))
    (moderateLeft : x.Moderate) (moderateRight : y.Moderate) :
    (∃ quotient, (evaluate (.binary (.calculate .divide) left right)).run before =
        (.ok (.num quotient), after) ∧
      (y.isZero = true → quotient = .float (if x.isZero || x.isNaN then .nan
        else .infinite (xor x.isNegative y.isNegative)))) ∧
    if x.isInfinite = true ∧ y.isZero = false ∧ y.isNaN = false then
      (evaluate (.binary (.calculate .remainder) left right)).run before =
        (.error .undefinedRemainder, after)
    else ∃ rest, (evaluate (.binary (.calculate .remainder) left right)).run before =
        (.ok (.num rest), after) ∧ (y.isZero = true → rest = .float .nan) := by
  rw [run_calculate givesLeft givesRight, run_calculate givesLeft givesRight]
  simp only [Calculation.function, Arithmetic.apply]
  constructor
  -- Moderate numbers have a quotient, and over zero it is told by the signs.
  · obtain ⟨quotient, divided⟩ := Number.succeeds_divide.mpr (moderateLeft.divides moderateRight)
    refine ⟨quotient, by rw [divided]; rfl, fun zero => ?_⟩
    rw [Number.divide_by_zero zero moderateLeft.fits] at divided
    cases divided
    rfl
  -- An infinite dividend stops the remainder, unless the divisor is zero or undefined.
  · split
    · next stops =>
      obtain ⟨infinite, some, defined⟩ := stops
      rw [Number.remainder_infinite infinite some defined moderateRight.fits]
      rfl
    · next goes =>
      -- Either the divisor is zero or undefined, or the dividend is not infinite.
      have reduces : x.Reduces y := by
        by_cases zero : y.isZero = true
        · exact .inl zero
        · refine .inr (.inr ⟨moderateLeft.fits, moderateRight.fits, fun infinite => ?_⟩)
          simpa [infinite, zero] using goes
      obtain ⟨rest, reduced⟩ := Number.succeeds_remainder.mpr reduces
      refine ⟨rest, by rw [reduced]; rfl, fun zero => ?_⟩
      rw [Number.remainder_by_zero zero] at reduced
      cases reduced
      rfl

/-- One over zero can be divided by two, but it has no remainder over two. -/
theorem evaluate_division_infinite :
    let trial := Trial.start "exp" .default (.ofBase .empty)
    let infinite : Tree :=
      .binary (.calculate .divide) (.scalar (.num (.int 1))) (.scalar (.num (.int 0)))
    let two : Tree := .scalar (.num (.int 2))
    (evaluate infinite).run trial = (.ok (.float (.infinite false)), trial) ∧
      (∃ half, (evaluate (.binary (.calculate .divide) infinite two)).run trial =
        (.ok (.num half), trial)) ∧
      (evaluate (.binary (.calculate .remainder) infinite two)).run trial =
        (.error .undefinedRemainder, trial) := by
  intro trial infinite two
  have constant (value : Number) :
      (evaluate (.scalar (.num value))).run trial = (.ok (.num value), trial) := rfl
  have moderate : ∀ value : Int, value.natAbs < 3 → (Number.int value).Moderate :=
    fun value small => Nat.lt_of_lt_of_le small (by decide +kernel)
  -- One over zero is infinite by the quotient of the same theorem.
  have givesInfinite : (evaluate infinite).run trial = (.ok (.float (.infinite false)), trial) := by
    obtain ⟨⟨quotient, gave, overZero⟩, -⟩ := evaluate_division (constant (.int 1))
      (constant (.int 0)) (moderate 1 (by decide)) (moderate 0 (by decide))
    cases overZero rfl
    exact gave
  obtain ⟨⟨half, gave, -⟩, stops⟩ := evaluate_division givesInfinite (constant (.int 2)) trivial
    (moderate 2 (by decide))
  rw [if_pos ⟨rfl, rfl, rfl⟩] at stops
  exact ⟨givesInfinite, ⟨half, gave⟩, stops⟩

end TrialScript
