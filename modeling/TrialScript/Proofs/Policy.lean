import TrialScript.Policy
import TrialScript.Proofs.Text.Digits

/-! Policies: a digest comes to no more than the largest number of its kept digits, which is exact. -/

namespace TrialScript.Policy

/-- The largest number that a policy can digest to is not zero. -/
theorem maxHash_pos (policy : Policy) : 0 < policy.maxHash := by
  -- At least one digit is kept.
  have digits := Nat.pow_le_pow_right (show 0 < 16 by decide) policy.hexDigits_pos
  unfold maxHash
  omega

/-- The largest number that a policy can digest to has at most fifty-two bits. -/
theorem maxHash_lt (policy : Policy) : policy.maxHash < 2 ^ 52 := by
  -- At most thirteen digits of four bits are kept.
  have digits := Nat.pow_le_pow_right (show 0 < 16 by decide) policy.hexDigits_le
  have most : 16 ^ mostHexDigits = 2 ^ 52 := by decide
  have positive := Nat.pow_pos (n := policy.hexDigits) (show 0 < 16 by decide)
  unfold maxHash
  omega

/-- A digest comes to no more than the largest number of the digits that are kept. -/
theorem seed_le (policy : Policy) (name : String) (salt : Value) :
    policy.seed name salt ≤ policy.maxHash := by
  -- No more digits are read than are kept, so their number has no further place.
  have kept : ((digestText (policy.input name salt)).take policy.hexDigits).length ≤
      policy.hexDigits := List.length_take_le _ _
  have places := Nat.pow_le_pow_right (show 0 < 16 by decide) kept
  have below := valueOfDigits_lt ((digestText (policy.input name salt)).take policy.hexDigits)
  unfold seed maxHash
  omega

/-- A digest is written with forty digits, eight for each of its five words. -/
theorem length_digestText (text : String) : (digestText text).length = 40 := by
  simp [digestText, Digest.Sha1.digest, Digest.hexText, length_hexDigits]

/-- The kept digits denote the whole digest without the places behind them. -/
theorem seed_eq_div (policy : Policy) (name : String) (salt : Value) :
    policy.seed name salt = valueOfDigits 16 (digestText (policy.input name salt)) /
      16 ^ (40 - policy.hexDigits) := by
  rw [seed, valueOfDigits_take, length_digestText]

/--
Keeping fewer digits divides the number by a power of sixteen and drops the rest.

Two policies with the same separator digest the same text. The number of the one that keeps fewer
digits is that of the other over sixteen for each digit less, and it stays in the range of the policy.
-/
theorem seed_truncates (name : String) (salt : Value) {fewer more : Policy}
    (same : fewer.separator = more.separator) (kept : fewer.hexDigits ≤ more.hexDigits) :
    fewer.seed name salt = more.seed name salt / 16 ^ (more.hexDigits - fewer.hexDigits) ∧
      fewer.seed name salt ≤ fewer.maxHash := by
  refine ⟨?_, fewer.seed_le name salt⟩
  have text : fewer.input name salt = more.input name salt := by rw [input, input, same]
  -- The places that only the shorter number lacks come on top of those that both of them lack.
  have places : 40 - fewer.hexDigits =
      (40 - more.hexDigits) + (more.hexDigits - fewer.hexDigits) := by
    have most : more.hexDigits ≤ 13 := more.hexDigits_le
    omega
  rw [seed_eq_div, seed_eq_div, text, places, Nat.pow_add, Nat.div_div_eq_div_mul]

/-- Five of thirteen digits are kept. -/
theorem seed_truncates_five :
    let five : Policy := ⟨".", 5, by decide, by decide⟩
    five.separator = default.separator ∧ five.hexDigits ≤ default.hexDigits ∧
      default.seed "evalCode" (.int 1) = 3647156450600614 ∧
      five.seed "evalCode" (.int 1) = 849169 ∧ five.maxHash = 1048575 := by
  -- The whole hash is computed once; the short seed is what the theorem takes from it.
  intro five
  have whole : default.seed "evalCode" (.int 1) = 3647156450600614 := by decide +kernel
  have same : five.separator = default.separator := rfl
  have kept : five.hexDigits ≤ default.hexDigits := by decide
  refine ⟨same, kept, whole, ?_, by decide⟩
  rw [(seed_truncates "evalCode" (.int 1) same kept).1, whole]
  decide

end TrialScript.Policy
