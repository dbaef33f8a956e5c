import TrialScript.Proofs.Numeric.Rounding

/-! Arithmetic that never rounds: integers stay integers, joined only by the undefined number. -/

namespace TrialScript

namespace Binary64

/-- A sum with an undefined left operand is undefined. -/
@[simp] theorem nan_add (x : Binary64) : add .nan x = .nan := rfl

/-- A sum with an undefined right operand is undefined. -/
@[simp] theorem add_nan (x : Binary64) : add x .nan = .nan := by
  cases x <;> rfl

/-- A difference with an undefined left operand is undefined. -/
@[simp] theorem nan_sub (x : Binary64) : sub .nan x = .nan := rfl

/-- A difference with an undefined right operand is undefined. -/
@[simp] theorem sub_nan (x : Binary64) : sub x .nan = .nan :=
  add_nan x

/-- A product with an undefined left operand is undefined. -/
@[simp] theorem nan_mul (x : Binary64) : mul .nan x = .nan := by
  simp [mul, isNaN]

/-- A product with an undefined right operand is undefined. -/
@[simp] theorem mul_nan (x : Binary64) : mul x .nan = .nan := by
  simp [mul, isNaN]

/-- A remainder of an undefined dividend is undefined. -/
@[simp] theorem nan_rem (x : Binary64) : rem .nan x = .nan := by
  simp [rem, isNaN]

/-- A remainder by an undefined divisor is undefined. -/
@[simp] theorem rem_nan (x : Binary64) : rem x .nan = .nan := by
  simp [rem, isNaN]

end Binary64

namespace Number

/-- A number that no calculation has rounded: an integer or the undefined number. -/
inductive Unrounded : Number → Prop where
  | int (value : Int) : Unrounded (.int value)
  | nan : Unrounded (.float .nan)

/-- An integer whose nearest binary64 number is finite converts to that number. -/
theorem toFloat_int {value : Int} (bounded : (Binary64.ofInt value).isInfinite = false) :
    toFloat (.int value) = .ok (.ofInt value) := by
  simp only [toFloat, bounded, Bool.false_eq_true, if_false]

section Undefined

variable {exactly : Int → Int → Int} {rounded : Binary64 → Binary64 → Binary64} {value : Int}

/-- An integer that binary64 can hold combines with the undefined number on its right. -/
theorem combine_nan (keeps : ∀ x, rounded x .nan = .nan)
    (bounded : (Binary64.ofInt value).isInfinite = false) :
    combine exactly rounded (.int value) (.float .nan) = .ok (.float .nan) := by
  simp only [combine, toFloat_int bounded]
  exact congrArg (Except.ok ∘ float) (keeps _)

/-- An integer that binary64 can hold combines with the undefined number on its left. -/
theorem nan_combine (keeps : ∀ x, rounded .nan x = .nan)
    (bounded : (Binary64.ofInt value).isInfinite = false) :
    combine exactly rounded (.float .nan) (.int value) = .ok (.float .nan) := by
  simp only [combine, toFloat_int bounded]
  exact congrArg (Except.ok ∘ float) (keeps _)

end Undefined

namespace Unrounded

variable {left right result : Number}

/-- An operation that is exact on integers and keeps the undefined number rounds nothing. -/
theorem combine {exactly : Int → Int → Int} {rounded : Binary64 → Binary64 → Binary64}
    (keepsLeft : ∀ x, rounded .nan x = .nan) (keepsRight : ∀ x, rounded x .nan = .nan)
    (first : left.Unrounded) (second : right.Unrounded)
    (gave : Number.combine exactly rounded left right = .ok result) : result.Unrounded := by
  rcases combine_ok gave with ⟨a, b, -, -, rfl⟩ | ⟨x, y, converts, converts', rfl, mixed⟩
  · exact .int _
  -- Of two numbers that are not both integers, one is undefined.
  rcases mixed with ⟨value, rfl⟩ | ⟨value, rfl⟩
  · cases first
    cases converts
    rw [keepsLeft]
    exact .nan
  · cases second
    cases converts'
    rw [keepsRight]
    exact .nan

/-- A remainder of unrounded numbers is unrounded, over zero as well. -/
theorem remainder (first : left.Unrounded) (second : right.Unrounded)
    (gave : left.remainder right = .ok result) : result.Unrounded := by
  rw [Number.remainder_eq] at gave
  split at gave
  · cases gave
    exact .nan
  split at gave
  · cases gave
    exact .int _
  · next mixed =>
    obtain ⟨x, converts, gave⟩ := check_bind_ok gave
    obtain ⟨y, converts', gave⟩ := check_bind_ok gave
    dsimp only at gave
    split at gave <;> cases gave
    -- Of two numbers that are not both integers, one is undefined.
    cases first with
    | nan =>
      cases converts
      rw [Binary64.nan_rem]
      exact .nan
    | int a =>
      cases second with
      | nan =>
        cases converts'
        rw [Binary64.rem_nan]
        exact .nan
      | int b => exact (mixed a b rfl rfl).elim

/-- Every function but the quotient gives an unrounded number of unrounded ones. -/
theorem apply {function : Arithmetic} (noQuotient : function ≠ .divide) (first : left.Unrounded)
    (second : right.Unrounded) (gave : function.apply left right = .ok result) :
    result.Unrounded := by
  -- One case for each function; the two extremes give one of their operands.
  cases function with
  | add => exact combine Binary64.nan_add Binary64.add_nan first second gave
  | subtract => exact combine Binary64.nan_sub Binary64.sub_nan first second gave
  | multiply => exact combine Binary64.nan_mul Binary64.mul_nan first second gave
  | divide => exact absurd rfl noQuotient
  | remainder => exact remainder first second gave
  | least =>
    cases gave
    rcases least_cases left right with same | same <;> rw [same] <;> assumption
  | greatest =>
    cases gave
    rcases greatest_cases left right with same | same <;> rw [same] <;> assumption

/-- Folding unrounded numbers with anything but the quotient gives an unrounded number. -/
theorem foldlM {function : Arithmetic} (noQuotient : function ≠ .divide) {numbers : List Number}
    (first : left.Unrounded) (each : ∀ number ∈ numbers, number.Unrounded)
    (gave : numbers.foldlM function.apply left = .ok result) : result.Unrounded := by
  -- By induction on the numbers, with an unrounded total so far.
  induction numbers generalizing left with
  | nil =>
    cases gave
    exact first
  | cons number rest ih =>
    obtain ⟨here, others⟩ := List.forall_mem_cons.mp each
    obtain ⟨between, made, gave⟩ := check_bind_ok gave
    exact ih (first.apply noQuotient here made) others gave

/-- Adding to zero changes no unrounded number. -/
theorem zero_add (unrounded : left.Unrounded) : Number.add (.int 0) left = .ok left := by
  cases unrounded with
  | int value => simp [Number.add, Number.combine]
  | nan => exact combine_nan Binary64.add_nan (by decide +kernel)

/-- Multiplying one changes no unrounded number. -/
theorem one_mul (unrounded : left.Unrounded) : Number.mul (.int 1) left = .ok left := by
  cases unrounded with
  | int value => simp [Number.mul, Number.combine]
  | nan => exact combine_nan Binary64.mul_nan (by decide +kernel)

/-- The opposite of an unrounded number is its product with minus one. -/
theorem mul_neg_one (unrounded : left.Unrounded) :
    Number.mul left (.int (-1)) = .ok left.neg := by
  cases unrounded with
  | int value => simp [Number.mul, Number.combine, Number.neg]
  | nan => exact nan_combine Binary64.nan_mul (by decide +kernel)

/-- The opposite of an unrounded number is unrounded. -/
theorem neg (unrounded : left.Unrounded) : left.neg.Unrounded := by
  cases unrounded with
  | int value => exact .int _
  | nan => exact .nan

/-- Rounding finds nothing to do in an unrounded number. -/
theorem roundHalfAway (unrounded : left.Unrounded) (gave : left.roundHalfAway = .ok result) :
    result = left := by
  -- An integer is only converted to see that it can be, and what is undefined stays so.
  cases unrounded with
  | int value =>
    obtain ⟨-, -, gave⟩ := check_bind_ok gave
    cases gave
    rfl
  | nan =>
    cases gave
    rfl

end Unrounded
end Number
end TrialScript
