import TrialScript.Evaluation
import TrialScript.Proofs.Numeric.Integral
import TrialScript.Proofs.Position

/-! Positions that scripts calculate: an item is looked up only at a place inside its list. -/

namespace TrialScript

/-- The integer part of a whole number is all of it. -/
theorem Binary64.units_eq_truncate {x : Binary64} (integral : x.isIntegral = true) :
    x.units = x.truncate * unitsPerOne := by
  obtain ⟨-, whole, distance⟩ := isIntegral_iff.mp integral
  -- The distance from zero is that many ones, and the sign is the same on both sides.
  have exactly : (x.magnitude : Int) = whole * unitsPerOne := by rw [distance, Int.natCast_mul]
  have quotient : (whole * unitsPerOne : Int) / unitsPerOne = whole :=
    Int.mul_ediv_cancel _ (Int.ne_of_gt natCast_unitsPerOne_pos)
  simp only [units, truncate, exactly, quotient]
  split
  · exact (Int.neg_mul _ _).symm
  · rfl

namespace Number

variable {n : Number}

/-- A whole number has an integer part, and that is where it stands on the number line. -/
theorem whole_of_isWhole (whole : n.isWhole = true) : ∃ integer : Int, n.whole = .ok integer ∧
    n.place? = (Number.int integer).place? ∧
    n.position? = if 0 ≤ integer then some integer.toNat else none := by
  -- The integer part of a float is taken from its units, which are those of a whole one.
  cases n with
  | int value => exact ⟨value, rfl, rfl, rfl⟩
  | float value =>
    have units := Binary64.units_eq_truncate whole
    cases value with
    | nan | infinite => cases whole
    | finite negative significand exponent canonical =>
      refine ⟨_, rfl, congrArg (fun units => some (Place.point units)) units, ?_⟩
      have integral : (Binary64.finite negative significand exponent canonical).isIntegral = true :=
        whole
      simp [position?, integral]

/-- Only whole numbers stand for positions. -/
theorem position?_of_not_isWhole (part : n.isWhole = false) : n.position? = none := by
  -- Every integer is whole, so only a float is left, which stands for a position if it is whole.
  cases n with
  | int value => cases part
  | float value =>
    have integral : value.isIntegral = false := part
    simp [position?, integral]

end Number

/-- The item at a number is the one at the position that it stands for, or null if there is none. -/
theorem itemAt_eq (items : List Value) (number : Number) : itemAt items number =
    .ok ((number.position?.bind fun index => items[index]?).getD .null) := by
  cases whole : number.isWhole with
  | false =>
    simp only [itemAt, whole, Number.position?_of_not_isWhole whole]
    rfl
  | true =>
    obtain ⟨integer, part, placed, position⟩ := Number.whole_of_isWhole whole
    -- The guards compare the number as they would compare its integer part.
    have nonneg : Number.atMost (.int 0) number = decide (0 ≤ integer) := by
      have same : Number.atMost (.int 0) number = Number.atMost (.int 0) (.int integer) := by
        simp only [Number.atMost, Number.less, Number.equals, placed]
      rw [same, Bool.eq_iff_iff, decide_eq_true_iff]
      exact ⟨Number.le_of_int_atMost, Number.int_atMost_int⟩
    have below : number.less (.int items.length) = decide (integer < items.length) := by
      rw [← Number.int_less_int]
      simp only [Number.less, placed]
    have looked : itemAt items number = if decide (0 ≤ integer) && decide (integer < items.length)
        then elementAt items integer else .ok .null := by
      simp only [itemAt, whole, nonneg, below, part, check_ok_bind]
      cases decide (0 ≤ integer) && decide (integer < items.length) <;> rfl
    rw [looked, position]
    by_cases negative : integer < 0
    · simp [Int.not_le.mpr negative]
    · -- The place of the item is inside the list exactly if the guards hold.
      obtain ⟨place, rfl⟩ := Int.eq_ofNat_of_zero_le (Int.not_lt.mp negative)
      by_cases inside : place < items.length
      · simp [inside, elementAt_natCast inside]
      · simp [inside]

end TrialScript
