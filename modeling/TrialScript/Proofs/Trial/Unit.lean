import TrialScript.Proofs.Numeric.Whole
import TrialScript.Proofs.Policy
import TrialScript.Trial.Draw

/-! The share that a trial draws lies between zero and one, and meets an end only where its hash does. -/

namespace TrialScript

namespace Binary64

/-- There is a number whose distance from zero is one. -/
theorem exists_one : ∃ one : Binary64, one.magnitude = unitsPerOne :=
  ⟨.finite false (2 ^ 52) 1022 (by decide), by decide +kernel⟩

/-- There is a number below one that is no further away from it than the last of fifty-three bits. -/
theorem exists_below_one :
    ∃ below : Binary64, below.magnitude * 2 ^ 53 = (2 ^ 53 - 1) * unitsPerOne :=
  ⟨.finite false (2 ^ 53 - 1) 1021 (by decide), by decide +kernel⟩

end Binary64

namespace Trial

variable {trial : Trial} {salt : Value}

/-- The share of the largest hash that the hash of a salt comes to. -/
def unit (trial : Trial) (salt : Value) : Binary64 :=
  .ofQuotient (trial.hash salt) trial.policy.maxHash

/-- A hash is never larger than the policy of the trial allows. -/
theorem hash_le (trial : Trial) (salt : Value) : trial.hash salt ≤ trial.policy.maxHash := by
  -- A disabled trial hashes to zero.
  unfold hash
  split
  · exact trial.policy.seed_le trial.name salt
  · exact Nat.zero_le _

/-- A hash has at most fifty-two bits. -/
theorem hash_lt (trial : Trial) (salt : Value) : trial.hash salt < 2 ^ 52 :=
  Nat.lt_of_le_of_lt (trial.hash_le salt) trial.policy.maxHash_lt

/-- A share is the quotient of the hash by the largest one, rounded once. -/
theorem unit_eq_round (trial : Trial) (salt : Value) : trial.unit salt =
    .round false (trial.hash salt * Binary64.unitsPerOne) trial.policy.maxHash := by
  -- Neither the hash nor the largest one is negative.
  have sign : ∀ n : Nat, decide ((n : Int) < 0) = false := by
    intro n
    rw [decide_eq_false_iff_not]
    omega
  rw [unit, Binary64.ofQuotient, sign, sign]
  rfl

/-- A share is a finite number. -/
theorem isFinite_unit (trial : Trial) (salt : Value) : (trial.unit salt).isFinite = true := by
  have bounded := trial.hash_le salt
  have positive := trial.policy.maxHash_pos
  rw [unit_eq_round]
  -- No share is larger than one, which is far below the limit.
  refine Binary64.isFinite_round positive ?_
  have many : 1 < Binary64.limit :=
    Nat.lt_of_lt_of_le (by decide : 1 < 2 ^ 1) (Binary64.pow_le_limit (by decide))
  calc trial.hash salt * Binary64.unitsPerOne
      ≤ trial.policy.maxHash * Binary64.unitsPerOne := Nat.mul_le_mul_right _ bounded
    _ = 1 * Binary64.unitsPerOne * trial.policy.maxHash := by rw [Nat.one_mul, Nat.mul_comm]
    _ < Binary64.limit * Binary64.unitsPerOne * trial.policy.maxHash :=
      Nat.mul_lt_mul_of_pos_right
        (Nat.mul_lt_mul_of_pos_right many Binary64.unitsPerOne_pos) positive

/-- Drawing a number between zero and one always gives the share of the largest hash. -/
@[simp] theorem fraction_unit (trial : Trial) (salt : Value) :
    trial.fraction salt = .ok (trial.unit salt) := by
  -- The largest hash is not zero, and no share is too large.
  have some : (trial.policy.maxHash : Int) ≠ 0 := by
    have := trial.policy.maxHash_pos
    omega
  have bounded : (Binary64.ofQuotient (trial.hash salt) trial.policy.maxHash).isInfinite = false :=
    (Binary64.isFinite_iff.mp (trial.isFinite_unit salt)).2
  rw [fraction, Number.quotient_of_ne some, bounded]
  rfl

/-- A share has no sign. -/
theorem isNegative_unit (trial : Trial) (salt : Value) : (trial.unit salt).isNegative = false := by
  rw [unit_eq_round, Binary64.isNegative_round]

/-- A share is not negative, so its units are its distance from zero. -/
theorem units_unit (trial : Trial) (salt : Value) :
    (trial.unit salt).units = (trial.unit salt).magnitude :=
  Binary64.units_eq_magnitude (trial.isNegative_unit salt)

/-- A share is at most one. -/
theorem magnitude_unit_le (trial : Trial) (salt : Value) :
    (trial.unit salt).magnitude ≤ Binary64.unitsPerOne := by
  have finite := trial.isFinite_unit salt
  obtain ⟨one, units⟩ := Binary64.exists_one
  rw [unit_eq_round] at finite ⊢
  -- The hash is at most the largest one, and rounding does not pass one.
  have within : trial.hash salt * Binary64.unitsPerOne ≤
      one.magnitude * trial.policy.maxHash := by
    rw [units, Nat.mul_comm]
    exact Nat.mul_le_mul_left _ (trial.hash_le salt)
  have rounded := Binary64.magnitude_round_le trial.policy.maxHash_pos within finite
  rwa [units] at rounded

/-- A share is zero for the hash zero, and for no other. -/
theorem magnitude_unit_pos : 0 < (trial.unit salt).magnitude ↔ 0 < trial.hash salt := by
  have finite := trial.isFinite_unit salt
  have positive := trial.policy.maxHash_pos
  rw [unit_eq_round] at finite ⊢
  constructor
  · intro some
    by_contra none
    rw [Nat.eq_zero_of_not_pos none, Nat.zero_mul] at finite some
    have nothing := Binary64.magnitude_round_zero positive finite
    omega
  · intro some
    -- One unit is less than one part of the largest hash.
    have least : 2 ^ 52 ≤ Binary64.unitsPerOne := by
      obtain ⟨place, more, units⟩ := Binary64.unitsPerOne_eq
      rw [units]
      exact Nat.pow_le_pow_right Nat.two_pos more
    have small := trial.policy.maxHash_lt
    refine Binary64.magnitude_round_pos positive ?_ finite
    calc trial.policy.maxHash ≤ Binary64.unitsPerOne := by omega
      _ ≤ trial.hash salt * Binary64.unitsPerOne := Nat.le_mul_of_pos_left _ some

/-- A share is one for the largest hash, and for no other. -/
theorem magnitude_unit_lt :
    (trial.unit salt).magnitude < Binary64.unitsPerOne ↔ trial.hash salt < trial.policy.maxHash := by
  have finite := trial.isFinite_unit salt
  have positive := trial.policy.maxHash_pos
  have bounded := trial.hash_le salt
  rw [unit_eq_round] at finite ⊢
  constructor
  · intro below
    by_contra largest
    obtain ⟨one, units⟩ := Binary64.exists_one
    -- The quotient of the largest hash by itself is rounded to no less than one.
    have whole : one.magnitude * trial.policy.maxHash ≤
        trial.hash salt * Binary64.unitsPerOne := by
      rw [units, Nat.mul_comm]
      exact Nat.mul_le_mul_right _ (by omega)
    have rounded := Binary64.le_magnitude_round positive whole finite
    omega
  · intro below
    obtain ⟨before, units⟩ := Binary64.exists_below_one
    have small := trial.policy.maxHash_lt
    have some := Binary64.unitsPerOne_pos
    -- The hash before the largest one is further away from it than fifty-three bits can tell.
    have room : trial.hash salt * 2 ^ 53 ≤ (2 ^ 53 - 1) * trial.policy.maxHash := by omega
    have within : trial.hash salt * Binary64.unitsPerOne ≤
        before.magnitude * trial.policy.maxHash := by
      refine Nat.le_of_mul_le_mul_right ?_ (Nat.two_pow_pos 53)
      calc trial.hash salt * Binary64.unitsPerOne * 2 ^ 53
          = trial.hash salt * 2 ^ 53 * Binary64.unitsPerOne := Nat.mul_right_comm _ _ _
        _ ≤ (2 ^ 53 - 1) * trial.policy.maxHash * Binary64.unitsPerOne :=
          Nat.mul_le_mul_right _ room
        _ = before.magnitude * trial.policy.maxHash * 2 ^ 53 := by
          rw [Nat.mul_right_comm, ← units, Nat.mul_right_comm]
    have rounded := Binary64.magnitude_round_le positive within finite
    omega

end Trial
end TrialScript
