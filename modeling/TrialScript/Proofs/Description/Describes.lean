import TrialScript.Proofs.Description.Throughout

/-! Which values a description describes, and that merging describes what either side does. -/

namespace TrialScript.Description

mutual

/-- Whether a description describes a value; the absent value is described by every one. -/
def describes : Description → Value → Bool
  | _, .null => true
  | .atom known, value => value.sameAtomic known
  | .range .integer low high, .int whole => low.atMost (.int whole) && (Value.int whole).atMost high
  | .select limit options, value => isSingle limit && describesAny options value
  | .array items, .list values => describesEach items values
  | .object known, value => value.equals known
  | .union variants, value => describesAny variants value
  | _, _ => false

/-- Whether one of some descriptions describes a value. -/
def describesAny : List Description → Value → Bool
  | [], _ => false
  | option :: rest, value => describes option value || describesAny rest value

/-- Whether descriptions describe as many values one by one. -/
def describesEach : List Description → List Value → Bool
  | [], [] => true
  | item :: items, value :: values => describes item value && describesEach items values
  | _, _ => false

end

/-- Nothing rules out the absent value. -/
@[simp] theorem describes_null (description : Description) :
    description.describes .null = true := by
  cases description <;> simp [describes]

/-- Options describe a value if one of them does. -/
theorem describesAny_iff {options : List Description} {value : Value} :
    describesAny options value = true ↔ ∃ option ∈ options, option.describes value = true := by
  -- The options are tried one after the other.
  induction options with
  | nil => simp [describesAny]
  | cons option rest ih => simp [describesAny, ih]

/-- Items describe values if there are as many, each described by its item. -/
theorem describesEach_iff {items : List Description} {values : List Value} :
    describesEach items values = true ↔
      List.Forall₂ (fun item value => item.describes value = true) items values := by
  -- The induction goes through both lists in step.
  induction items generalizing values with
  | nil => cases values <;> simp [describesEach]
  | cons item items ih => cases values <;> simp [describesEach, ih]

section Known

variable {value : Value}

/-- An exact value describes what is the same value of the same kind. -/
theorem describes_atom (known : value ≠ .null) (exactly : Value) :
    (Description.atom exactly).describes value = value.sameAtomic exactly := by
  unfold describes
  split <;> simp_all

/-- A single choice describes what one of its options does. -/
theorem describes_select (known : value ≠ .null) (limit : Value) (options : List Description) :
    (Description.select limit options).describes value =
      (isSingle limit && describesAny options value) := by
  unfold describes
  split <;> simp_all

/-- A union describes what one of its variants does. -/
theorem describes_union (known : value ≠ .null) (variants : List Description) :
    (Description.union variants).describes value = describesAny variants value := by
  unfold describes
  split <;> simp_all

/-- An exact mapping describes what is equal to it. -/
theorem describes_object (known : value ≠ .null) (exactly : Value) :
    (Description.object exactly).describes value = value.equals exactly := by
  unfold describes
  split <;> simp_all

/-- A range describes the integers between its bounds, if it is one of integers. -/
theorem describes_range (known : value ≠ .null) {kind : RangeKind} {low high : Value} :
    (Description.range kind low high).describes value = true ↔
      kind = .integer ∧ ∃ whole, value = .int whole ∧ Between low high (.int whole) := by
  unfold describes
  split <;> simp_all [Between]

/-- The description of a list describes lists of as many described items. -/
theorem describes_array (known : value ≠ .null) {items : List Description} :
    (Description.array items).describes value = true ↔
      ∃ values, value = .list values ∧ describesEach items values = true := by
  unfold describes
  split <;> simp_all

end Known

/-- Equal descriptions describe the same values. -/
theorem describes_of_same {left right : Description} {value : Value}
    (equal : left.same right = true) (described : left.describes value = true) :
    right.describes value = true := by
  -- An absent value is described in any case, so only values that are there are compared.
  by_cases known : value = .null
  · subst known
    exact describes_null right
  induction left using induction_parts generalizing right value with
  | atom exactly =>
    cases right <;> simp only [same, Bool.false_eq_true] at equal
    rw [describes_atom known] at described ⊢
    exact Value.sameAtomic_trans described equal
  | range kind low high =>
    obtain ⟨low', high', rfl, wider⟩ := Inside.of_same_range equal
    rw [describes_range known] at described ⊢
    obtain ⟨integer, whole, isWhole, between⟩ := described
    exact ⟨integer, whole, isWhole, wider _ between⟩
  | select limit options ih =>
    cases right <;> simp only [same, Bool.false_eq_true, Bool.and_eq_true] at equal
    rw [describes_select known, Bool.and_eq_true, describesAny_iff] at described ⊢
    obtain ⟨single, option, member, described⟩ := described
    refine ⟨isSingle_of_equals equal.1 ▸ single, ?_⟩
    -- The option at the same position on the other side is an equal one.
    obtain ⟨other, found, equalOption⟩ := exists_same_of_mem equal.2 member
    exact ⟨other, found, ih option member equalOption described known⟩
  | array items ih =>
    cases right <;> simp only [same, Bool.false_eq_true] at equal
    rw [describes_array known] at described ⊢
    obtain ⟨values, isList, described⟩ := described
    refine ⟨values, isList, ?_⟩
    clear isList
    -- The three lists are followed in step.
    rw [describesEach_iff] at described ⊢
    rw [sameItems_iff] at equal
    induction equal generalizing values with
    | nil => exact described
    | @cons item other _ _ here _ ihRest =>
      cases described with
      | @cons _ first _ rest describedFirst describedRest =>
        obtain ⟨ihItem, ihItems⟩ := List.forall_mem_cons.mp ih
        refine .cons ?_ (ihRest ihItems rest describedRest)
        -- An absent item is described in any case.
        by_cases present : first = .null
        · exact present ▸ describes_null other
        · exact ihItem here describedFirst present
  | object exactly =>
    cases right <;> simp only [same, Bool.false_eq_true] at equal
    rw [describes_object known] at described ⊢
    exact Value.equals_trans described equal
  | union variants ih =>
    cases right <;> simp only [same, Bool.false_eq_true] at equal
    rw [describes_union known, describesAny_iff] at described ⊢
    obtain ⟨variant, member, described⟩ := described
    obtain ⟨other, found, equalVariant⟩ := exists_same_of_mem equal member
    exact ⟨other, found, ih variant member equalVariant described known⟩

/-- A value that is there is described by one of the alternatives. -/
theorem describes_iff_leaves {description : Description} {value : Value} (known : value ≠ .null) :
    description.describes value = true ↔
      ∃ leaf ∈ description.leaves, leaf.describes value = true := by
  -- Choices of one and unions are opened, and every other description is its own alternative.
  have opened : ∀ {items : List Description},
      (∀ item ∈ items, item.describes value = true ↔
        ∃ leaf ∈ item.leaves, leaf.describes value = true) →
      (describesAny items value = true ↔ ∃ leaf ∈ leavesOf items, leaf.describes value = true) := by
    intro items ih
    rw [describesAny_iff]
    constructor
    · rintro ⟨item, member, described⟩
      obtain ⟨leaf, ofItem, described⟩ := (ih item member).mp described
      exact ⟨leaf, mem_leavesOf.mpr ⟨item, member, ofItem⟩, described⟩
    · rintro ⟨leaf, member, described⟩
      obtain ⟨item, inside, ofItem⟩ := mem_leavesOf.mp member
      exact ⟨item, inside, (ih item inside).mpr ⟨leaf, ofItem, described⟩⟩
  induction description using induction_parts with
  | atom exactly =>
    by_cases something : exactly = .null
    · -- What is unknown describes only the absent value.
      subst something
      have impossible : value.sameAtomic .null ≠ true := fun equal =>
        known (Value.eq_null_of_equals (Value.sameAtomic_iff.mp equal).1)
      simp [describes_atom known, impossible, leaves]
    · simp [leaves_atom something]
  | select limit options ih =>
    by_cases single : isSingle limit = true
    · rw [describes_select known, single, Bool.true_and, leaves_single single]
      exact opened ih
    · simp [leaves_several single]
  | union variants ih =>
    rw [describes_union known]
    exact opened ih
  | range | array | object => simp [leaves]

/-- What covers a description describes every value that it describes. -/
theorem Covers.describes {wide narrow : Description} {value : Value} (covers : wide.Covers narrow)
    (described : narrow.describes value = true) : wide.describes value = true := by
  -- The alternative that describes the value is found again on the wider side.
  by_cases known : value = .null
  · subst known
    exact describes_null wide
  obtain ⟨leaf, member, described⟩ := (describes_iff_leaves known).mp described
  obtain ⟨other, found, inside⟩ := covers leaf member
  refine (describes_iff_leaves known).mpr ⟨other, found, ?_⟩
  cases inside with
  | refl => exact described
  | same equal => exact describes_of_same equal described
  | within wider =>
    rw [describes_range known] at described ⊢
    obtain ⟨integer, whole, isWhole, between⟩ := described
    exact ⟨integer, whole, isWhole, wider _ between⟩

/-- An exact value has no parts, and the bounds of an interval are defined numbers. -/
abbrev Proper.Here : Description → Prop
  | .atom value => value.Atomic
  | .range _ low high => DefinedNumbers low high
  | _ => True

/-- Descriptions whose exact values have no parts and whose bounds are defined numbers. -/
abbrev Proper : Description → Prop :=
  Throughout Proper.Here

namespace Proper

/-- Two proper exact values that are equal are so in either order. -/
theorem exchangeable {left : Description} (proper : left.Proper) (right : Description) :
    left.Exchangeable right := by
  -- A proper exact value has no parts, and between those equality is symmetric.
  rintro x y rfl rfl equal
  exact proper.meets.sameAtomic_symm equal

/-- Being proper goes to and comes from the parts of a description. -/
theorem hereditary : Hereditary Proper :=
  Throughout.hereditary trivial (fun _ => trivial) (fun _ => trivial) DefinedNumbers.widened

/-- The bounds of proper intervals can be ordered. -/
theorem ordered {description : Description} (proper : description.Proper) :
    description.Ordered := by
  refine hereditary.ordered ?_ proper
  intro kind low high range
  obtain ⟨lowDefined, highDefined⟩ := range.meets
  exact ⟨.num lowDefined, .num highDefined⟩

end Proper

/-- A merged description describes what either side describes. -/
theorem describes_of_merge {left right merged : Description} {value : Value} (proper : left.Proper)
    (made : merge left right = .ok merged) (described : right.describes value = true) :
    merged.describes value = true := by
  -- An exact value that is proper equals another in either order, so the right side is covered.
  have covers := (merges_of_merge made).coversRight proper.ordered (proper.exchangeable right)
  exact covers.describes described

/-- The description of a known value is proper. -/
theorem proper_ofLiteral (value : Value) : (ofLiteral value).Proper :=
  Throughout.ofLiteral (fun _ atomic => atomic) (fun _ => trivial) (fun _ => trivial) value

/-- The description of a known regular value describes it. -/
theorem describes_ofLiteral {value : Value} (regular : value.Regular) :
    (ofLiteral value).describes value = true := by
  -- The induction follows the ways to be regular, since each level equals itself.
  by_cases known : value = .null
  · exact known ▸ describes_null _
  induction regular with
  | scalar defined =>
    show (Description.atom _).describes _ = true
    rw [describes_atom known]
    exact (Value.Regular.scalar defined).sameAtomic_self
  -- An item that is null is described by anything, and so by its own description.
  | @list items _ ih =>
    refine (describes_array known).mpr ⟨items, rfl, ?_⟩
    rw [describesEach_iff, ofLiterals_eq_map, List.forall₂_map_left_iff, List.forall₂_same]
    intro item member
    by_cases present : item = .null
    · exact present ▸ describes_null _
    · exact ih item member present
  -- A mapping is described as a whole, so its fields need not be looked at one by one.
  | @dict fields distinct each _ =>
    show (Description.object _).describes _ = true
    rw [describes_object known]
    exact (Value.Regular.dict distinct each).equals_self
  | date day =>
    show (Description.atom _).describes _ = true
    rw [describes_atom known]
    exact (Value.Regular.date day).sameAtomic_self
  | datetime moment =>
    show (Description.atom _).describes _ = true
    rw [describes_atom known]
    exact (Value.Regular.datetime moment).sameAtomic_self

end TrialScript.Description
