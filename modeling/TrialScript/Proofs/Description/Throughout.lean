import TrialScript.Proofs.Description.Hereditary
import TrialScript.Proofs.Value.Regular

/-! Conditions that a description and everything inside it meet. -/

namespace TrialScript.Description

/-- A description meets a condition, and so do its options, items and variants at every depth. -/
inductive Throughout (here : Description → Prop) : Description → Prop where
  | atom {value : Value} (meets : here (.atom value)) : Throughout here (.atom value)
  | range {kind : RangeKind} {low high : Value} (meets : here (.range kind low high)) :
      Throughout here (.range kind low high)
  | select {limit : Value} {options : List Description} (meets : here (.select limit options))
      (each : ∀ option ∈ options, Throughout here option) : Throughout here (.select limit options)
  | array {items : List Description} (meets : here (.array items))
      (each : ∀ item ∈ items, Throughout here item) : Throughout here (.array items)
  | object {value : Value} (meets : here (.object value)) : Throughout here (.object value)
  | union {variants : List Description} (meets : here (.union variants))
      (each : ∀ variant ∈ variants, Throughout here variant) : Throughout here (.union variants)

/-- Two bounds that are numbers in a relation. -/
inductive Numbers (related : Number → Number → Prop) : Value → Value → Prop where
  | intro {low high : Number} (relates : related low high) :
      Numbers related (.num low) (.num high)

/-- Two bounds that are defined numbers. -/
abbrev DefinedNumbers : Value → Value → Prop :=
  Numbers fun low high => low.isNaN = false ∧ high.isNaN = false

/-- Defined bounds are widened to defined bounds. -/
theorem DefinedNumbers.widened {low low' high high' : Value} (left : DefinedNumbers low high)
    (right : DefinedNumbers low' high') : ∃ least most,
      widen low low' high high' = .ok (least, most) ∧ DefinedNumbers least most := by
  obtain ⟨lowDefined, highDefined⟩ := left
  obtain ⟨lowDefined', highDefined'⟩ := right
  exact ⟨_, _, widen_num .., ⟨Number.isNaN_least lowDefined lowDefined',
    Number.isNaN_greatest highDefined highDefined'⟩⟩

/-- Known values are described one after the other. -/
theorem ofLiterals_eq_map (items : List Value) : ofLiterals items = items.map ofLiteral := by
  -- Both sides describe the items one after the other.
  induction items with
  | nil => rfl
  | cons item rest ih => rw [ofLiterals, ih, List.map_cons]

namespace Throughout

variable {here there : Description → Prop} {description : Description}

/-- What is met throughout is met by the description itself. -/
theorem meets (throughout : Throughout here description) : here description := by
  cases throughout <;> assumption

/-- What is met throughout meets every weaker condition throughout. -/
theorem mono (weaker : ∀ description, here description → there description)
    (throughout : Throughout here description) : Throughout there description := by
  -- By induction on the description, whose parts meet the condition by themselves.
  induction throughout with
  | atom meets => exact .atom (weaker _ meets)
  | range meets => exact .range (weaker _ meets)
  | select meets _ ih => exact .select (weaker _ meets) ih
  | array meets _ ih => exact .array (weaker _ meets) ih
  | object meets => exact .object (weaker _ meets)
  | union meets _ ih => exact .union (weaker _ meets) ih

/-- The options of a choice meet what the choice meets throughout. -/
theorem options {limit : Value} {options : List Description}
    (throughout : Throughout here (.select limit options)) :
    ∀ option ∈ options, Throughout here option := by
  cases throughout
  assumption

/-- The items of a list meet what the list meets throughout. -/
theorem items {items : List Description} (throughout : Throughout here (.array items)) :
    ∀ item ∈ items, Throughout here item := by
  cases throughout
  assumption

/-- The variants of a union meet what the union meets throughout. -/
theorem variants {variants : List Description} (throughout : Throughout here (.union variants)) :
    ∀ variant ∈ variants, Throughout here variant := by
  cases throughout
  assumption

/-- A condition that asks nothing of choices of one and of unions goes to and comes from parts. -/
theorem hereditary (unknown : here .unknown) (oneOf : ∀ options, here (.oneOf options))
    (union : ∀ variants, here (.union variants))
    (widened : ∀ {kind : RangeKind} {low low' high high' : Value}, here (.range kind low high) →
      here (.range kind low' high') → ∃ least most,
        widen low low' high high' = .ok (least, most) ∧ here (.range kind least most)) :
    Hereditary (Throughout here) where
  unknown := .atom unknown
  options := options
  oneOf each := .select (oneOf _) each
  variants := variants
  union each := .union (union _) each
  widened left right := by
    obtain ⟨least, most, found, meets⟩ := widened left.meets right.meets
    exact ⟨least, most, found, .range meets⟩

/-- The description of a known value meets what exact values, lists and mappings meet. -/
theorem ofLiteral (atom : ∀ value : Value, value.Atomic → here (.atom value))
    (array : ∀ items, here (.array items)) (object : ∀ fields, here (.object (.dict fields)))
    (value : Value) : Throughout here (.ofLiteral value) := by
  -- Lists are described item by item, mappings as a whole.
  induction value using Value.induction_parts with
  | list items ih =>
    rw [Description.ofLiteral, ofLiterals_eq_map]
    exact .array (array _) (List.forall_mem_map.mpr ih)
  | dict fields _ => exact .object (object fields)
  | scalar | date | datetime => exact .atom (atom _ trivial)

end Throughout
end TrialScript.Description
