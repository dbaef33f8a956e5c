import Mathlib.Data.List.Induction
import TrialScript.Text.Digits

/-! Digit strings: what decimal digits denote, also in parts and with zeros around them. -/

namespace TrialScript

/-- The digits of a number denote it, however its digits are split. -/
theorem valueOfDigits_append (base : Nat) (front rear : List Char) :
    valueOfDigits base (front ++ rear) =
      valueOfDigits base front * base ^ rear.length + valueOfDigits base rear := by
  -- The induction takes the digits behind from the last one on.
  induction rear using List.reverseRecOn with
  | nil => simp [valueOfDigits]
  | append_singleton rear last ih =>
    rw [← List.append_assoc, valueOfDigits_concat, ih, valueOfDigits_concat, List.length_append,
      List.length_singleton, Nat.pow_succ, Nat.mul_add, Nat.add_assoc]
    congr 1
    rw [Nat.mul_left_comm, Nat.mul_comm base]

/-- A character counts as less than sixteen, whether it is a digit or not. -/
theorem getD_digitValue?_lt (c : Char) : (digitValue? c).getD 0 < 16 := by
  -- The ranges of digits have ten and six characters, and all others count as zero.
  unfold digitValue?
  split
  · next digit =>
    have top : c.toNat ≤ 57 := by
      simp only [Char.isDigit, Bool.and_eq_true, decide_eq_true_eq] at digit
      exact UInt32.le_iff_toNat_le.mp digit.2
    rw [Option.getD_some]
    omega
  · split
    · next lower =>
      have top : c.toNat ≤ 102 := by
        simp only [Bool.and_eq_true, decide_eq_true_eq] at lower
        exact UInt32.le_iff_toNat_le.mp lower.2
      rw [Option.getD_some]
      omega
    · split
      · next upper =>
        have top : c.toNat ≤ 70 := by
          simp only [Bool.and_eq_true, decide_eq_true_eq] at upper
          exact UInt32.le_iff_toNat_le.mp upper.2
        rw [Option.getD_some]
        omega
      · decide

/-- Hexadecimal digits denote a number below the power of sixteen that has one more of them. -/
theorem valueOfDigits_lt (digits : List Char) :
    valueOfDigits 16 digits < 16 ^ digits.length := by
  -- The induction takes the last digit, which fills the place that the base leaves free.
  induction digits using List.reverseRecOn with
  | nil => decide
  | append_singleton digits last ih =>
    have digit := getD_digitValue?_lt last
    rw [valueOfDigits_concat, List.length_append, List.length_singleton, Nat.pow_succ]
    omega

/-- The first digits of a number denote it without the places of the digits that are left out. -/
theorem valueOfDigits_take (kept : Nat) (digits : List Char) :
    valueOfDigits 16 (digits.take kept) =
      valueOfDigits 16 digits / 16 ^ (digits.length - kept) := by
  -- What is left out denotes less than one of the last kept place.
  have whole := valueOfDigits_append 16 (digits.take kept) (digits.drop kept)
  have rest := valueOfDigits_lt (digits.drop kept)
  rw [List.take_append_drop] at whole
  rw [List.length_drop] at whole rest
  rw [whole, Nat.add_comm, Nat.add_mul_div_right _ _ (Nat.pow_pos (by decide)),
    Nat.div_eq_of_lt rest, Nat.zero_add]

/-- Zeros denote nothing. -/
theorem valueOfDigits_zeros (base count : Nat) :
    valueOfDigits base (List.replicate count '0') = 0 := by
  -- By induction on the count: each zero adds nothing to the ones before it.
  induction count with
  | zero => rfl
  | succ count ih =>
    have digit : digitValue? '0' = some 0 := by decide
    rw [List.replicate_succ', valueOfDigits_concat, ih, digit]
    rfl

/-- Every number has a digit. -/
theorem digitsOf_ne_nil (n : Nat) : digitsOf n ≠ [] :=
  List.ne_nil_of_length_pos Nat.length_toDigits_pos

/-- The digits of a number are digits. -/
theorem isDigit_of_mem_digitsOf {n : Nat} {c : Char} (member : c ∈ digitsOf n) :
    c.isDigit = true :=
  Nat.isDigit_of_mem_toDigits (by decide) (by decide) member

/-- The digits of a number denote it. -/
theorem valueOfDigits_digitsOf (n : Nat) : valueOfDigits 10 (digitsOf n) = n := by
  -- The last digit is the remainder by ten, and the others are the digits of the quotient.
  induction n using Nat.strongRecOn with
  | ind n ih =>
    rw [digitsOf, Nat.toDigits_eq_if (by decide)]
    split
    · next small =>
      have digit := digitValue?_digitChar (Nat.lt_of_lt_of_le small (by decide : 10 ≤ 16))
      simp [valueOfDigits, digit]
    · next large =>
      have digit := digitValue?_digitChar
        (Nat.lt_of_lt_of_le (Nat.mod_lt n (by decide : 0 < 10)) (by decide : 10 ≤ 16))
      have front : valueOfDigits 10 (Nat.toDigits 10 (n / 10)) = n / 10 := ih (n / 10) (by omega)
      rw [valueOfDigits_concat, front, digit, Option.getD_some]
      omega

/-- A positive number does not begin with a zero. -/
theorem head_digitsOf {n : Nat} (some : 0 < n) :
    ∃ first rest, digitsOf n = first :: rest ∧ first ≠ '0' := by
  -- By strong induction: the front of a longer number is a smaller positive number.
  induction n using Nat.strongRecOn with
  | ind n ih =>
    rw [digitsOf, Nat.toDigits_eq_if (by decide)]
    split
    · next small =>
      have notZero : ∀ digit < 10, 0 < digit → Nat.digitChar digit ≠ '0' := by decide
      exact ⟨n.digitChar, [], rfl, notZero n small some⟩
    · next large =>
      obtain ⟨first, rest, front, notZero⟩ := ih (n / 10) (by omega) (by omega)
      have front : Nat.toDigits 10 (n / 10) = first :: rest := front
      exact ⟨first, rest ++ [(n % 10).digitChar], by rw [front]; rfl, notZero⟩

end TrialScript
