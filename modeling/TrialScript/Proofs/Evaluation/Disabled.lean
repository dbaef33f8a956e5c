import TrialScript.Proofs.Evaluation.Indistinguishable
import TrialScript.Proofs.Trial.Unit

/-! Disabled trials: no draw shows anything of the name or the policy, and so no script does. -/

namespace TrialScript

/-- No part of a positive number is zero, without a sign. -/
theorem Binary64.ofQuotient_zero {denominator : Nat} (positive : 0 < denominator) :
    ofQuotient 0 denominator = zero false := by
  have exponent : exponentOf 0 denominator = 0 := by simp [exponentOf]
  have significand : nearestEven 0 denominator = 0 := by simp [nearestEven, positive]
  have canonical : Canonical 0 0 := by decide
  have unsigned : ¬ (denominator : Int) < 0 := by omega
  simp [ofQuotient, round, exponent, significand, canonical, unsigned, zero]

namespace Trial

variable {trial : Trial}

/-- A disabled trial hashes every salt to zero. -/
theorem hash_of_disabled (disabled : trial.enabled = false) (salt : Value) : trial.hash salt = 0 := by
  simp [hash, disabled]

/-- A disabled trial draws zero as every share, however large its hashes could be. -/
theorem unit_of_disabled (disabled : trial.enabled = false) (salt : Value) :
    trial.unit salt = .zero false := by
  simp only [unit, hash_of_disabled disabled]
  exact Binary64.ofQuotient_zero trial.policy.maxHash_pos

/-- Disabled trials with the same variables, both returned or both not. -/
structure DisabledAlike (first second : Trial) : Prop where
  disabled : first.enabled = false
  disabled' : second.enabled = false
  «variables» : first.variables = second.variables
  returned : first.returned = second.returned

namespace DisabledAlike

variable {first second : Trial}

/-- All disabled trials draw the same. -/
theorem drawsAlike (alike : DisabledAlike first second) : DrawsAlike first second where
  hash salt := by rw [hash_of_disabled alike.disabled, hash_of_disabled alike.disabled']
  fraction salt := by
    rw [fraction_unit, fraction_unit, unit_of_disabled alike.disabled,
      unit_of_disabled alike.disabled']

/-- An effect leaves disabled trials disabled, and does the same to the variables of both. -/
theorem effect (alike : DisabledAlike first second) (effect : Effect) :
    DisabledAlike (effect.apply first) (effect.apply second) := by
  -- Only a script that finishes can disable a trial, and both are already.
  obtain ⟨disabled, disabled', same, returned⟩ := alike
  cases effect with
  | none => exact ⟨disabled, disabled', same, returned⟩
  | assign name value =>
    exact ⟨disabled, disabled', congrArg (Store.assign · name value) same, returned⟩
  | finish value =>
    simp only [Effect.apply]
    split
    · exact ⟨rfl, rfl, same, rfl⟩
    · exact ⟨disabled, disabled', same, rfl⟩

/-- Disabled trials with the same variables cannot be told apart by any script. -/
theorem bisimulation (names : List String) : Bisimulation names DisabledAlike where
  looksAlike alike := { alike.drawsAlike with
    returned := alike.returned
    lookup := fun name _ => by rw [alike.variables] }
  effect alike := alike.effect

end DisabledAlike
end Trial

/--
In a disabled trial a script shows nothing of the name or the policy.

Over the same variables it gives the same value or the same fault, and leaves the same variables
and the same latch.
-/
theorem evaluate_disabled_alike (tree : Tree) (held : Store Value) (name name' : String)
    (policy policy' : Policy) :
    let outcome := (evaluate tree).run (Trial.start name policy held).disable
    let outcome' := (evaluate tree).run (Trial.start name' policy' held).disable
    outcome.1 = outcome'.1 ∧ outcome.2.variables = outcome'.2.variables ∧
      outcome.2.returned = outcome'.2.returned := by
  -- Both trials are disabled from the start, so the one evaluation follows the other.
  have alike : Trial.DisabledAlike (Trial.start name policy held).disable
      (Trial.start name' policy' held).disable := ⟨rfl, rfl, rfl, rfl⟩
  obtain ⟨same, after⟩ := (Trial.DisabledAlike.bisimulation tree.lookedUp).evaluate alike
  exact ⟨same, after.variables, after.returned⟩

end TrialScript
