import TrialScript.Evaluation
import TrialScript.Preview
import TrialScript.Proofs.Numeric.Unrounded

/-! Exact descriptions: calculating with them is calculating with the values that they describe. -/

namespace TrialScript

/-- Only a number is a number. -/
theorem Value.number?_eq_some {value : Value} {number : Number} :
    value.number? = some number ↔ value = .num number := by
  refine ⟨fun found => ?_, fun same => same ▸ rfl⟩
  unfold Value.number? at found
  split at found <;> cases found
  rfl

/-- A number that an operation demands is what its operand is. -/
theorem numberFor_ok {operation : String} {operand : Value} {number : Number}
    (gave : numberFor operation operand = .ok number) : operand = .num number := by
  -- The demand is met only by a number, which it gives back.
  unfold numberFor at gave
  split at gave
  · next found =>
    cases gave
    exact Value.number?_eq_some.mp found
  · cases gave

/-- A value that is no rounded number. -/
def Value.Unrounded (value : Value) : Prop :=
  ∀ number, value.number? = some number → number.Unrounded

/-- A scalar that is no float is unrounded. -/
theorem Value.Unrounded.of_scalar {value : Scalar} (noFloat : ∀ x, value ≠ .num (.float x)) :
    (Value.scalar value).Unrounded := by
  -- Only a number has to be looked at, and that is an integer.
  intro number found
  cases Value.number?_eq_some.mp found
  cases number with
  | int count => exact .int count
  | float x => exact absurd rfl (noFloat x)

/-- A function of any values does to numbers what it is for numbers. -/
theorem Arithmetic.onValues_num (function : Arithmetic) (x y : Number) :
    function.onValues (.num x) (.num y) = Value.num <$> function.apply x y := by
  -- Only the extremes compare values before they know that both are numbers.
  cases function with
  | least | greatest =>
    simp only [onValues, apply, Value.least?, Value.greatest?, Value.before?, Value.quantity?,
      Scalar.quantity?, Option.map_some, Value.whenOrdered, Number.least, Number.greatest, Functor.map,
      Except.map]
    split <;> rfl
  | _ => rfl

namespace Description

/-- The description of exactly one value, which is no rounded number. -/
def Exactly (found : Description) (value : Value) : Prop :=
  found = .atom value ∧ value.Unrounded

/-- The description of exactly one number. -/
def ofNumber (number : Number) : Description :=
  .atom (.num number)

/-- An unrounded number describes itself exactly. -/
theorem exactly_num {number : Number} (unrounded : number.Unrounded) :
    (ofNumber number).Exactly (.num number) := by
  refine ⟨rfl, ?_⟩
  rintro other ⟨⟩
  exact unrounded

/-- Two exact numbers combine to the exact result, or to the fault of the function. -/
theorem combine_ofNumber (function : Arithmetic) (x y : Number) :
    combine function (ofNumber x) (ofNumber y) = ofNumber <$> function.apply x y := by
  simp only [combine, ofNumber, isOperand, isStructured, number?, Value.number?, Option.isSome_some,
    Bool.or_true, if_true, combineSimple, Arithmetic.onValues_num]
  cases function.apply x y <;> rfl

/-- Combining exact numbers one after the other is folding the numbers. -/
theorem foldlM_ofNumber (function : Arithmetic) (first : Number) (rest : List Number) :
    (rest.map ofNumber).foldlM (combine function) (ofNumber first) =
      ofNumber <$> rest.foldlM function.apply first := by
  -- The induction is on the numbers, with any number in the place of the first.
  induction rest generalizing first with
  | nil => rfl
  | cons number rest ih =>
    rw [List.map_cons, List.foldlM_cons, List.foldlM_cons, combine_ofNumber]
    cases function.apply first number with
    | error fault => rfl
    | ok between => exact ih between

end Description

/-- No fold divides. -/
theorem FoldOp.function_ne_divide (op : FoldOp) : op.function ≠ .divide := by
  cases op <;> simp [function]

/-- A fold of unrounded numbers might as well have started with the first of them. -/
theorem FoldOp.apply_cons (op : FoldOp) {first : Number} (unrounded : first.Unrounded)
    (rest : List Number) : op.apply (first :: rest) = rest.foldlM op.function.apply first := by
  -- Sums start from zero and products from one, which do nothing to the first number.
  cases op with
  | sum =>
    simp only [apply, List.foldlM_cons, function, Arithmetic.apply, unrounded.zero_add]
    rfl
  | product =>
    simp only [apply, List.foldlM_cons, function, Arithmetic.apply, unrounded.one_mul]
    rfl
  | least | greatest => rfl

/-- A fold of unrounded numbers gives exactly what is described for it. -/
theorem FoldOp.exactly (op : FoldOp) {numbers : List Number} {result : Number}
    (some : numbers ≠ []) (unrounded : ∀ number ∈ numbers, number.Unrounded)
    (gave : op.apply numbers = .ok result) :
    describeFold op (numbers.map Description.ofNumber) = .ok (.ofNumber result) ∧
      (Description.ofNumber result).Exactly (.num result) := by
  -- The first number starts the fold on both sides, and the others are folded in alike.
  obtain ⟨first, rest, rfl⟩ := List.exists_cons_of_ne_nil some
  obtain ⟨here, others⟩ := List.forall_mem_cons.mp unrounded
  rw [op.apply_cons here] at gave
  constructor
  · exact (Description.foldlM_ofNumber op.function first rest).trans (by rw [gave]; rfl)
  · exact Description.exactly_num (here.foldlM op.function_ne_divide others gave)

section Operands

variable {left right operand value : Value}

/-- A calculation without a quotient gives exactly what is described for it. -/
theorem Calculation.exactly {op : Calculation} (noQuotient : op ≠ .divide)
    (fine : left.Unrounded) (fine' : right.Unrounded)
    (gave : (BinaryOp.calculate op).apply left right = .ok value) :
    ∃ found, Description.combine op.function (.atom left) (.atom right) = .ok found ∧
      found.Exactly value := by
  -- The run gave a result, so both operands are numbers and so is the result.
  obtain ⟨x, isNumber, gave⟩ := check_bind_ok gave
  obtain ⟨y, isNumber', gave⟩ := check_bind_ok gave
  obtain ⟨result, applied, gave⟩ := check_bind_ok gave
  cases gave
  cases numberFor_ok isNumber
  cases numberFor_ok isNumber'
  have noQuotient : op.function ≠ .divide := by
    cases op <;> simp [function] at noQuotient ⊢
  have unrounded := (fine x rfl).apply noQuotient (fine' y rfl) applied
  refine ⟨.ofNumber result, ?_, Description.exactly_num unrounded⟩
  exact (Description.combine_ofNumber op.function x y).trans (by rw [applied]; rfl)

/-- The opposite is exactly what is described for it, as a product with minus one. -/
theorem UnaryOp.negate_exactly (fine : operand.Unrounded)
    (gave : UnaryOp.negate.apply operand = .ok value) :
    ∃ found, describeUnary (.atom operand) .negate = .ok found ∧ found.Exactly value := by
  -- The preview multiplies by minus one, which is the opposite for an unrounded number.
  obtain ⟨number, isNumber, gave⟩ := check_bind_ok gave
  cases gave
  cases numberFor_ok isNumber
  have unrounded := fine number rfl
  refine ⟨.ofNumber number.neg, ?_, Description.exactly_num unrounded.neg⟩
  refine (Description.combine_ofNumber .multiply number (.int (-1))).trans ?_
  rw [Arithmetic.apply, unrounded.mul_neg_one]
  rfl

/-- The rounded number is exactly what is described for it. -/
theorem UnaryOp.round_exactly (fine : operand.Unrounded)
    (gave : UnaryOp.round.apply operand = .ok value) :
    ∃ found, describeUnary (.atom operand) .round = .ok found ∧ found.Exactly value := by
  -- An unrounded number is a whole one, so rounding leaves it as it is.
  obtain ⟨number, isNumber, gave⟩ := check_bind_ok gave
  obtain ⟨rounded, rounds, gave⟩ := check_bind_ok gave
  cases gave
  cases numberFor_ok isNumber
  have unrounded := fine number rfl
  cases unrounded.roundHalfAway rounds
  refine ⟨.ofNumber number, ?_, Description.exactly_num unrounded⟩
  simp only [describeUnary, Description.round, Value.number?, rounds]
  rfl

end Operands
end TrialScript
