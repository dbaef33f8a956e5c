import TrialScript.Proofs.Description.Exact
import TrialScript.Proofs.Description.Hereditary

/-! Properties of descriptions that merging, calculating and rounding keep. -/

namespace TrialScript

/-- A function of any values gives a number for two numbers. -/
theorem Arithmetic.gives_onValues_num (function : Arithmetic) (x y : Number) :
    Gives (fun result => ∃ number, result = .num number) (function.onValues (.num x) (.num y)) := by
  rw [onValues_num]
  exact .bind (.any _) fun number _ => .ok ⟨number, rfl⟩

/-- A value that counts as a number rounds to a number. -/
theorem Value.gives_roundHalfAway (value : Value) :
    Gives (fun rounded => ∃ number, rounded = .num number) value.roundHalfAway := by
  unfold Value.roundHalfAway
  split
  · exact .bind (.any _) fun number _ => .ok ⟨number, rfl⟩
  · exact .error _

namespace Description

section Items

variable {function : Arithmetic}

/-- Options on the right are combined one by one. -/
theorem combineOptions_eq_mapM (left : Description) (options : List Description) :
    combineOptions function left options = options.mapM (combineSimple function left) := by
  induction options with
  | nil => rfl
  | cons option rest ih => rw [combineOptions, List.mapM_cons, ih]

/-- Options on the left are combined one by one. -/
theorem combineEach_eq_mapM (options : List Description) (right : Description) :
    combineEach function options right = options.mapM fun option => combine function option right := by
  induction options with
  | nil => rfl
  | cons option rest ih => rw [combineEach, List.mapM_cons, ih]

/-- Parts are rounded one by one. -/
theorem roundItems_eq_mapM (items : List Description) : roundItems items = items.mapM round := by
  induction items with
  | nil => rfl
  | cons item rest ih => rw [roundItems, List.mapM_cons, ih]

end Items

/-- An exact value that a calculation can say something about is a number. -/
theorem eq_num_of_isOperand {value : Value} (operand : (Description.atom value).isOperand = true) :
    ∃ number, value = .num number := by
  obtain ⟨number, found⟩ : ∃ number, value.number? = some number :=
    Option.isSome_iff_exists.mp (by simpa [isOperand, isStructured, number?] using operand)
  exact ⟨number, Value.number?_eq_some.mp found⟩

/-- A property of descriptions that comes from their parts, and that rounding keeps. -/
structure Composed (holds : Description → Prop) : Prop where
  scalar : ∀ value : Scalar, holds (.atom (.scalar value))
  counted : ∀ count : Nat, holds (.range .integer (.int 0) (.int count))
  chosen : ∀ {limit : Number} {options : List Description}, (∀ option ∈ options, holds option) →
    holds (.select (.num limit) options)
  array : ∀ {items : List Description}, holds (.array items) ↔ ∀ item ∈ items, holds item
  field : ∀ {fields : Table Value} {name : String} {value : Value},
    holds (.object (.dict fields)) → fields.lookup? name = some value → holds (ofLiteral value)
  round : ∀ {description : Description}, holds description → Gives holds description.round

/--
A property of descriptions that lasts through everything that is done with them.

Bounds have a property of their own, which numbers have and calculating keeps.
-/
structure Lasting (bound : Value → Prop) (holds : Description → Prop) : Prop where
  number : ∀ n : Number, bound (.num n)
  calculated : ∀ {function : Arithmetic} {left right : Value}, bound left → bound right →
    Gives bound (function.onValues left right)
  scalar : ∀ value : Scalar, holds (.atom (.scalar value))
  range : ∀ {kind : RangeKind} {low high : Value},
    holds (.range kind low high) ↔ bound low ∧ bound high
  options : ∀ {limit : Value} {options : List Description}, holds (.select limit options) →
    ∀ option ∈ options, holds option
  exchanged : ∀ {limit : Value} {options others : List Description},
    holds (.select limit options) → (∀ option ∈ others, holds option) →
      holds (.select limit others)
  chosen : ∀ {limit : Number} {options : List Description}, (∀ option ∈ options, holds option) →
    holds (.select (.num limit) options)
  array : ∀ {items : List Description}, holds (.array items) ↔ ∀ item ∈ items, holds item
  variants : ∀ {variants : List Description}, holds (.union variants) →
    ∀ variant ∈ variants, holds variant
  unionOf : ∀ {variants : List Description}, (∀ variant ∈ variants, holds variant) →
    holds (unionOf variants)
  field : ∀ {fields : Table Value} {name : String} {value : Value},
    holds (.object (.dict fields)) → fields.lookup? name = some value → holds (ofLiteral value)

namespace Lasting

variable {bound : Value → Prop} {holds : Description → Prop} (lasting : Lasting bound holds)

include lasting

/-- Merging keeps a property that lasts. -/
theorem keptByMerging : KeptByMerging holds where
  unknown := lasting.scalar .null
  options := lasting.options
  oneOf := lasting.chosen
  variants := lasting.variants
  unionOf := lasting.unionOf
  widened := by
    intro kind low low' high high' least most holdsLeft holdsRight widened
    obtain ⟨boundLow, boundHigh⟩ := lasting.range.mp holdsLeft
    obtain ⟨boundLow', boundHigh'⟩ := lasting.range.mp holdsRight
    -- Each new bound is one of the two that there were.
    unfold widen at widened
    split at widened
    · next chosenLow chosenHigh =>
      cases widened
      exact lasting.range.mpr ⟨Value.of_chosen chosenLow boundLow boundLow',
        Value.of_chosen chosenHigh boundHigh boundHigh'⟩
    · cases widened

/-- Calculating with an exact number or a range on the left keeps the property. -/
theorem combineSimple {function : Arithmetic} {left right : Description}
    (operand : left.isOperand = true) (holdsLeft : holds left) (holdsRight : holds right) :
    Gives holds (Description.combineSimple function left right) := by
  -- The induction is on the right side, whose options are combined one by one.
  induction right using induction_parts with
  | atom value =>
    unfold Description.combineSimple
    split
    · next known =>
      -- Two exact numbers give an exact number.
      obtain ⟨number, rfl⟩ := eq_num_of_isOperand operand
      refine .bind (Arithmetic.gives_onValues_num _ _ _) fun result made => ?_
      obtain ⟨number, rfl⟩ := made
      exact .ok (lasting.scalar _)
    · -- Both bounds move by the same number.
      obtain ⟨low, high⟩ := lasting.range.mp holdsLeft
      exact .bind (lasting.calculated low (lasting.number _)) fun least boundLeast =>
        .bind (lasting.calculated high (lasting.number _)) fun most boundMost =>
          .ok (lasting.range.mpr ⟨boundLeast, boundMost⟩)
    · exact .ok (lasting.scalar .null)
  | range kind low high =>
    obtain ⟨boundLow, boundHigh⟩ := lasting.range.mp holdsRight
    unfold Description.combineSimple
    split
    · obtain ⟨number, rfl⟩ := eq_num_of_isOperand operand
      exact .bind (lasting.calculated (lasting.number number) boundLow) fun least boundLeast =>
        .bind (lasting.calculated (lasting.number number) boundHigh) fun most boundMost =>
          .ok (lasting.range.mpr ⟨boundLeast, boundMost⟩)
    · -- Lower bounds meet each other, and so do upper ones.
      obtain ⟨boundLow', boundHigh'⟩ := lasting.range.mp holdsLeft
      exact .bind (lasting.calculated boundLow' boundLow) fun least boundLeast =>
        .bind (lasting.calculated boundHigh' boundHigh) fun most boundMost =>
          .ok (lasting.range.mpr ⟨boundLeast, boundMost⟩)
    · exact .ok (lasting.scalar .null)
  | select limit options ih =>
    have each := lasting.options holdsRight
    rw [Description.combineSimple, combineOptions_eq_mapM]
    exact .bind (.mapM fun option member => ih option member (each option member))
      fun others holdsOthers => .ok (lasting.exchanged holdsRight holdsOthers)
  | array | object | union => exact .ok (lasting.scalar .null)

/-- Calculating keeps the property. -/
theorem combine {function : Arithmetic} {left right : Description} (holdsLeft : holds left)
    (holdsRight : holds right) : Gives holds (Description.combine function left right) := by
  -- The induction is on the left side, whose options are combined one by one.
  induction left using induction_parts with
  | atom value =>
    rw [Description.combine]
    split
    · next operand => exact lasting.combineSimple operand holdsLeft holdsRight
    · exact .ok (lasting.scalar .null)
  -- A range is always an operand.
  | range kind low high =>
    rw [Description.combine]
    exact lasting.combineSimple rfl holdsLeft holdsRight
  -- The results take the places of the options, so the choice keeps the property.
  | select limit options ih =>
    have each := lasting.options holdsLeft
    rw [Description.combine]
    split
    · rw [combineEach_eq_mapM]
      exact .bind (.mapM fun option member => ih option member (each option member))
        fun others holdsOthers => .ok (lasting.exchanged holdsLeft holdsOthers)
    · exact .ok (lasting.scalar .null)
  | array | object | union => exact .ok (lasting.scalar .null)

/-- Rounding keeps the property. -/
theorem round {description : Description} (here : holds description) :
    Gives holds description.round := by
  -- The induction is on the description; options and variants are rounded one by one.
  induction description using induction_parts with
  | atom value =>
    rw [Description.round]
    split
    · exact .bind (.any _) fun number _ => .ok (lasting.scalar _)
    · exact .ok here
  | range kind low high =>
    cases kind with
    | integer =>
      rw [Description.round]
      exact .ok here
    | float =>
      -- Whatever the bounds were, they are numbers once they are rounded.
      rw [Description.round]
      refine .bind (Value.gives_roundHalfAway low) fun least roundLeast => ?_
      refine .bind (Value.gives_roundHalfAway high) fun most roundMost => ?_
      obtain ⟨least, rfl⟩ := roundLeast
      obtain ⟨most, rfl⟩ := roundMost
      exact .ok (lasting.range.mpr ⟨lasting.number least, lasting.number most⟩)
  | select limit options ih =>
    have each := lasting.options here
    rw [Description.round, roundItems_eq_mapM]
    exact .bind (.mapM fun option member => ih option member (each option member))
      fun others holdsOthers => .ok (lasting.exchanged here holdsOthers)
  | union variants ih =>
    have each := lasting.variants here
    rw [Description.round, roundItems_eq_mapM]
    exact .bind (.mapM fun variant member => ih variant member (each variant member))
      fun others holdsOthers => .ok (lasting.unionOf holdsOthers)
  | array | object =>
    rw [Description.round] <;> first | exact .ok here | simp

/-- A property that lasts comes from parts. -/
theorem composed : Composed holds where
  scalar := lasting.scalar
  counted _ := lasting.range.mpr ⟨lasting.number _, lasting.number _⟩
  chosen := lasting.chosen
  array := lasting.array
  field := lasting.field
  round := lasting.round

end Lasting
end Description
end TrialScript
