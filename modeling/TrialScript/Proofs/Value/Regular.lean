import TrialScript.Proofs.Value.Keyed

/-! Values that equal themselves: those without the undefined number, each field named once. -/

namespace TrialScript.Value

/-- A value without the undefined number whose mappings name every field once, as read ones do. -/
inductive Regular : Value → Prop where
  | scalar {value : Scalar} (defined : ∀ number, value = .num number → number.isNaN = false) :
      Regular (.scalar value)
  | list {items : List Value} (each : ∀ item ∈ items, Regular item) : Regular (.list items)
  | dict {fields : List (String × Value)} (distinct : (Table.names fields).Nodup)
      (each : ∀ field ∈ fields, Regular field.2) : Regular (.dict fields)
  | date (day : Date) : Regular (.date day)
  | datetime (moment : DateTime) : Regular (.datetime moment)

/-- A scalar is equal to itself unless it is the undefined number. -/
theorem scalar_equals_self {value : Scalar}
    (defined : ∀ number, value = .num number → number.isNaN = false) :
    value.equals value = true := by
  -- The two sides are alike, so only a quantity could differ from itself.
  rw [Scalar.equals_iff]
  cases value with
  | null => exact .inl ⟨rfl, rfl⟩
  | str text => exact .inr (.inl ⟨text, rfl, rfl⟩)
  | bool truth =>
    -- A truth value counts as zero or one, which are defined.
    exact .inr (.inr ⟨_, _, rfl, rfl, Number.equals_self rfl⟩)
  | num number =>
    exact .inr (.inr ⟨number, number, rfl, rfl, Number.equals_self (defined number rfl)⟩)

/-- A regular value is equal to itself. -/
theorem Regular.equals_self {value : Value} (regular : value.Regular) :
    value.equals value = true := by
  -- The induction follows the ways to be regular.
  induction regular with
  | scalar defined => exact scalar_equals_self defined
  | @list items _ ih =>
    -- Items are compared with themselves, one after the other.
    show equalsItems items items = true
    induction items with
    | nil => rfl
    | cons item rest ihRest =>
      obtain ⟨here, others⟩ := List.forall_mem_cons.mp ih
      rw [equalsItems, here, ihRest (by simp_all) others, Bool.and_self]
  | @dict fields distinct _ ih =>
    rw [equals, Bool.and_eq_true, beq_iff_eq, equalsFields_iff]
    -- With distinct names the field that is found is the field itself.
    refine ⟨rfl, fun field member => ⟨field.2, ?_, ih field member⟩⟩
    exact Table.lookup?_of_mem distinct member
  | date day => exact beq_self_eq_true day
  | datetime moment => exact moment.same_self

/-- A regular value is strictly equal to itself. -/
theorem Regular.sameAtomic_self {value : Value} (regular : value.Regular) :
    value.sameAtomic value = true :=
  sameAtomic_iff.mpr ⟨regular.equals_self, Iff.rfl⟩

/-- The mappings in a regular value name every field once. -/
theorem Regular.keyed {value : Value} (regular : value.Regular) : value.Keyed := by
  -- By induction on the value, of which the regular parts are mapped case by case.
  induction regular with
  | scalar => exact .scalar _
  | list _ ih => exact .list ih
  | dict distinct _ ih => exact .dict distinct ih
  | date day => exact .date day
  | datetime moment => exact .datetime moment

/-- A value without parts. -/
def Atomic : Value → Prop
  | .list _ | .dict _ => False
  | _ => True

/-- A value without parts has no mapping in which a field could be named twice. -/
theorem Atomic.keyed {value : Value} (atomic : value.Atomic) : value.Keyed := by
  -- What is atomic has no parts.
  cases value with
  | list | dict => exact atomic.elim
  | scalar value => exact .scalar value
  | date day => exact .date day
  | datetime moment => exact .datetime moment

/-- Between values without parts the order of the two sides does not matter. -/
theorem Atomic.equals_symm {x y : Value} (atomic : x.Atomic) (same : x.equals y = true) :
    y.equals x = true := by
  -- Only the equality of mappings looks at its two sides differently.
  cases x with
  | list | dict => exact atomic.elim
  | scalar left =>
    cases y <;> simp only [equals, Bool.false_eq_true] at same
    exact Scalar.equals_symm same
  | date day =>
    cases y <;> simp only [equals, Bool.false_eq_true, beq_iff_eq] at same
    simp [equals, same]
  | datetime moment =>
    cases y <;> simp only [equals, Bool.false_eq_true] at same
    exact DateTime.same_symm same

/-- Strict equality of values without parts is symmetric. -/
theorem Atomic.sameAtomic_symm {x y : Value} (atomic : x.Atomic) (same : x.sameAtomic y = true) :
    y.sameAtomic x = true := by
  -- Both halves of strict equality are symmetric on their own.
  rw [sameAtomic_iff] at same ⊢
  exact ⟨atomic.equals_symm same.1, same.2.symm⟩

end TrialScript.Value
