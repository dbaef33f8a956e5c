import TrialScript.Numeric.Arithmetic
import TrialScript.Proofs.Store
import TrialScript.Value.Order

/-! Laws of equality and order: numbers by their places, and values part by part. -/

namespace TrialScript

namespace Binary64

/-- The units of one are a power of two with more bits than a significand has. -/
theorem unitsPerOne_eq : ∃ place, 52 ≤ place ∧ unitsPerOne = 2 ^ place :=
  ⟨1074, by decide, by rw [unitsPerOne]⟩

/-- There are units in a one. -/
theorem unitsPerOne_pos : 0 < unitsPerOne := by
  obtain ⟨place, -, units⟩ := unitsPerOne_eq
  rw [units]
  exact Nat.two_pow_pos place

/-- There are units in a one, as an integer. -/
theorem natCast_unitsPerOne_pos : (0 : Int) < unitsPerOne :=
  Int.natCast_pos.mpr unitsPerOne_pos

end Binary64

namespace Place

/-- Coming before is transitive. -/
theorem before_trans {first second third : Place} (earlier : first.before second = true)
    (later : second.before third = true) : first.before third = true := by
  -- Both ends settle themselves, and points are compared as integers.
  cases first <;> cases second <;> cases third <;> simp_all [before]
  omega

/-- Of two places one is before the other, unless they are the same. -/
theorem before_or_eq {first second : Place} (notAfter : second.before first = false) :
    first.before second = true ∨ first = second := by
  -- Both ends settle themselves, and points are compared as integers.
  cases first <;> cases second <;> simp_all [before]
  omega

end Place

namespace Number

variable {x y z : Number}

/-- Equal numbers are those at the same place. -/
theorem equals_iff :
    x.equals y = true ↔ ∃ place, x.place? = some place ∧ y.place? = some place := by
  -- Without a place on either side nothing is equal.
  unfold equals
  cases x.place? with
  | none => simp
  | some first => cases y.place? <;> simp [eq_comm (a := first)]

/-- A smaller number is one at an earlier place. -/
theorem less_iff : x.less y = true ↔
    ∃ first second, x.place? = some first ∧ y.place? = some second ∧
      first.before second = true := by
  -- Without a place on either side nothing is smaller.
  unfold less
  cases x.place? <;> cases y.place? <;> simp

/-- Equality of numbers goes both ways. -/
theorem equals_symm (same : x.equals y = true) : y.equals x = true := by
  obtain ⟨place, left, right⟩ := equals_iff.mp same
  exact equals_iff.mpr ⟨place, right, left⟩

/-- Equality of numbers goes on. -/
theorem equals_trans (first : x.equals y = true) (second : y.equals z = true) :
    x.equals z = true := by
  -- A number has one place, so both facts speak of the same one in the middle.
  obtain ⟨place, left, middle⟩ := equals_iff.mp first
  obtain ⟨place', middle', right⟩ := equals_iff.mp second
  cases middle.symm.trans middle'
  exact equals_iff.mpr ⟨place, left, right⟩

/-- A number is at most another if it is at an earlier place or the same one. -/
theorem atMost_iff : x.atMost y = true ↔ ∃ first second, x.place? = some first ∧
    y.place? = some second ∧ (first.before second = true ∨ first = second) := by
  -- The two ways to be at most another are the two that the definition tries.
  rw [atMost, Bool.or_eq_true, less_iff, equals_iff]
  constructor
  · rintro (⟨first, second, left, right, before⟩ | ⟨place, left, right⟩)
    · exact ⟨first, second, left, right, .inl before⟩
    · exact ⟨place, place, left, right, .inr rfl⟩
  · rintro ⟨first, second, left, right, before | rfl⟩
    · exact .inl ⟨first, second, left, right, before⟩
    · exact .inr ⟨first, left, right⟩

/-- A smaller number is at most the larger one. -/
theorem atMost_of_less (smaller : x.less y = true) : x.atMost y = true := by
  rw [atMost, smaller, Bool.true_or]

/-- A number is at most an equal one. -/
theorem atMost_of_equals (same : x.equals y = true) : x.atMost y = true := by
  rw [atMost, same, Bool.or_true]

/-- Being at most another number is transitive. -/
theorem atMost_trans (first : x.atMost y = true) (second : y.atMost z = true) :
    x.atMost z = true := by
  -- A number has one place, so both facts speak of the same one in the middle.
  obtain ⟨low, middle, atLow, atMiddle, below⟩ := atMost_iff.mp first
  obtain ⟨middle', high, atMiddle', atHigh, above⟩ := atMost_iff.mp second
  cases atMiddle.symm.trans atMiddle'
  refine atMost_iff.mpr ⟨low, high, atLow, atHigh, ?_⟩
  rcases below with below | rfl
  · rcases above with above | rfl
    · exact .inl (Place.before_trans below above)
    · exact .inl below
  · exact above

/-- A number that is defined has a place. -/
theorem place_of_not_isNaN (defined : x.isNaN = false) : ∃ place, x.place? = some place := by
  -- Only the undefined number has no place.
  cases x with
  | int value => exact ⟨_, rfl⟩
  | float value =>
    cases value with
    | nan => cases defined
    | infinite | finite => exact ⟨_, rfl⟩

/-- A defined number is equal to itself. -/
theorem equals_self (defined : x.isNaN = false) : x.equals x = true := by
  obtain ⟨place, found⟩ := place_of_not_isNaN defined
  exact equals_iff.mpr ⟨place, found, found⟩

/-- Of two defined numbers the first is at most the second, unless the second is smaller. -/
theorem atMost_of_not_less (definedLeft : x.isNaN = false) (definedRight : y.isNaN = false)
    (notSmaller : y.less x = false) : x.atMost y = true := by
  -- Places are in order one way or the other.
  obtain ⟨first, left⟩ := place_of_not_isNaN definedLeft
  obtain ⟨second, right⟩ := place_of_not_isNaN definedRight
  refine atMost_iff.mpr ⟨first, second, left, right, Place.before_or_eq ?_⟩
  simpa [less, left, right] using notSmaller

/-- A number that is at most another one is not the larger one. -/
theorem not_less_of_atMost (ordered : x.atMost y = true) : y.less x = false := by
  -- Both comparisons look at the two places, of which no two are before each other.
  obtain ⟨first, second, left, right, places⟩ := atMost_iff.mp ordered
  rw [less, left, right]
  rcases places with before | rfl
  · cases first <;> cases second <;> simp_all [Place.before]
    omega
  · cases first <;> simp [Place.before]

/-- The smaller of two numbers is one of them. -/
theorem least_cases (x y : Number) : x.least y = x ∨ x.least y = y := by
  unfold least
  split
  · exact .inr rfl
  · exact .inl rfl

/-- The larger of two numbers is one of them. -/
theorem greatest_cases (x y : Number) : x.greatest y = x ∨ x.greatest y = y := by
  unfold greatest
  split
  · exact .inr rfl
  · exact .inl rfl

/-- The smaller of two defined numbers is at most either of them. -/
theorem least_atMost (definedLeft : x.isNaN = false) (definedRight : y.isNaN = false) :
    (x.least y).atMost x = true ∧ (x.least y).atMost y = true := by
  -- The second number is taken only where it is smaller than the first.
  unfold least
  split
  · next smaller => exact ⟨atMost_of_less smaller, atMost_of_equals (equals_self definedRight)⟩
  · next notSmaller =>
    exact ⟨atMost_of_equals (equals_self definedLeft),
      atMost_of_not_less definedLeft definedRight (by simpa using notSmaller)⟩

/-- Either of two defined numbers is at most the larger of them. -/
theorem atMost_greatest (definedLeft : x.isNaN = false) (definedRight : y.isNaN = false) :
    x.atMost (x.greatest y) = true ∧ y.atMost (x.greatest y) = true := by
  -- The second number is taken only where the first is smaller.
  unfold greatest
  split
  · next larger => exact ⟨atMost_of_less larger, atMost_of_equals (equals_self definedRight)⟩
  · next notLarger =>
    exact ⟨atMost_of_equals (equals_self definedLeft),
      atMost_of_not_less definedRight definedLeft (by simpa using notLarger)⟩

/-- The smaller of two defined numbers is defined. -/
theorem isNaN_least (definedLeft : x.isNaN = false) (definedRight : y.isNaN = false) :
    (x.least y).isNaN = false := by
  rcases least_cases x y with same | same <;> rw [same] <;> assumption

/-- The larger of two defined numbers is defined. -/
theorem isNaN_greatest (definedLeft : x.isNaN = false) (definedRight : y.isNaN = false) :
    (x.greatest y).isNaN = false := by
  rcases greatest_cases x y with same | same <;> rw [same] <;> assumption

/-- A number that is at least another is defined. -/
theorem not_isNaN_of_atMost (below : x.atMost y = true) : x.isNaN = false ∧ y.isNaN = false := by
  -- Both numbers have a place, which the undefined one has not.
  obtain ⟨first, second, left, right, -⟩ := atMost_iff.mp below
  constructor
  · cases x with
    | int value => rfl
    | float value =>
      cases value with
      | nan => cases left
      | infinite | finite => rfl
  · cases y with
    | int value => rfl
    | float value =>
      cases value with
      | nan => cases right
      | infinite | finite => rfl

/-- Integers have the order of their values. -/
theorem int_less_int (left right : Int) :
    (Number.int left).less (.int right) = decide (left < right) := by
  -- Both sides are scaled by the same positive number of units.
  simp only [less, place?, Place.before]
  exact decide_eq_decide.mpr (Int.mul_lt_mul_right Binary64.natCast_unitsPerOne_pos)

/-- Integers in order are at most one another. -/
theorem int_atMost_int {left right : Int} (ordered : left ≤ right) :
    (Number.int left).atMost (.int right) = true := by
  -- Integers are defined, so one is at most another unless the other is smaller.
  refine atMost_of_not_less rfl rfl ?_
  rw [int_less_int, decide_eq_false_iff_not]
  omega

/-- Integers are at most one another only in order. -/
theorem le_of_int_atMost {left right : Int}
    (ordered : (Number.int left).atMost (.int right) = true) : left ≤ right := by
  have notLess := not_less_of_atMost ordered
  rw [int_less_int, decide_eq_false_iff_not] at notLess
  omega

end Number

namespace Scalar

variable {x y z : Scalar}

/-- Equal scalars are both null, the same text, or equal as quantities. -/
theorem equals_iff : x.equals y = true ↔ (x = .null ∧ y = .null) ∨
    (∃ text, x = .str text ∧ y = .str text) ∨
    ∃ p q, x.quantity? = some p ∧ y.quantity? = some q ∧ p.equals q = true := by
  -- The cases follow the definition, which compares each kind with its own.
  cases x with
  | str text => cases y <;> simp [equals, quantity?, eq_comm (a := text)]
  | _ => cases y <;> simp [equals, quantity?]

/-- Equality of scalars goes both ways. -/
theorem equals_symm (same : x.equals y = true) : y.equals x = true := by
  -- Each of the three ways to be equal is symmetric.
  rw [equals_iff] at same ⊢
  rcases same with ⟨rfl, rfl⟩ | ⟨text, rfl, rfl⟩ | ⟨p, q, left, right, same⟩
  · exact .inl ⟨rfl, rfl⟩
  · exact .inr (.inl ⟨text, rfl, rfl⟩)
  · exact .inr (.inr ⟨q, p, right, left, Number.equals_symm same⟩)

/-- Equality of scalars goes on. -/
theorem equals_trans (first : x.equals y = true) (second : y.equals z = true) :
    x.equals z = true := by
  -- The middle is null, a text or a quantity, so both facts are of one kind.
  rw [equals_iff] at first second ⊢
  rcases first with ⟨rfl, rfl⟩ | ⟨text, rfl, rfl⟩ | ⟨p, q, left, middle, same⟩
  · simpa [quantity?] using second
  · simpa [quantity?] using second
  · rcases second with ⟨rfl, rfl⟩ | ⟨text, rfl, rfl⟩ | ⟨q', r, middle', right, same'⟩
    · cases middle
    · cases middle
    · cases middle.symm.trans middle'
      exact .inr (.inr ⟨p, r, left, right, Number.equals_trans same same'⟩)

end Scalar

namespace DateTime

/-- Every moment is the same as itself. -/
@[simp] theorem same_self (moment : DateTime) : moment.same moment = true := by
  -- With a zone the world times are compared, and without one the moments themselves.
  unfold same
  cases moment.worldTime? <;> simp

/-- It does not matter which of two moments is compared with the other. -/
theorem same_symm {x y : DateTime} (same : x.same y = true) : y.same x = true := by
  -- Both have a zone or neither of them has one, and equality does not look at sides.
  unfold DateTime.same at same ⊢
  generalize x.worldTime? = left at same ⊢
  generalize y.worldTime? = right at same ⊢
  cases left <;> cases right <;> simp_all

/-- Being the same moment is transitive. -/
theorem same_trans {x y z : DateTime} (first : x.same y = true) (second : y.same z = true) :
    x.same z = true := by
  -- All three have a zone or none of them has one, as the same moments agree in that.
  unfold same at first second ⊢
  generalize x.worldTime? = left at first ⊢
  generalize y.worldTime? = middle at first second
  generalize z.worldTime? = right at second ⊢
  cases left <;> cases middle <;> cases right <;> simp_all

/-- Two moments have an order if both or neither of them have a zone. -/
theorem isSome_before? {x y : DateTime} :
    (x.before? y).isSome = true ↔ x.zone.isSome = y.zone.isSome := by
  -- A moment has a world time exactly if it has a zone.
  unfold before? worldTime?
  cases x.zone <;> cases y.zone <;> simp

end DateTime

namespace Value

/-- The fields of a mapping are found in another if each of them has an equal one there. -/
theorem equalsFields_iff {left right : List (String × Value)} :
    equalsFields left right = true ↔ ∀ field ∈ left, ∃ other,
      Table.lookup? field.1 right = some other ∧ field.2.equals other = true := by
  -- The induction is on the fields on the left, which are looked up one by one.
  induction left with
  | nil => simp [equalsFields]
  | cons field rest ih =>
    obtain ⟨name, value⟩ := field
    rw [equalsFields, List.forall_mem_cons, ← ih]
    cases Table.lookup? name right <;> simp

/-- What holds of a value once it holds of its items and fields holds of every value. -/
theorem induction_parts {motive : Value → Prop} (scalar : ∀ value, motive (.scalar value))
    (list : ∀ items, (∀ item ∈ items, motive item) → motive (.list items))
    (dict : ∀ fields : List (String × Value), (∀ field ∈ fields, motive field.2) →
      motive (.dict fields))
    (date : ∀ day, motive (.date day)) (datetime : ∀ moment, motive (.datetime moment)) :
    ∀ value, motive value
  | .scalar value => scalar value
  | .list items => list items fun item _ => induction_parts scalar list dict date datetime item
  | .dict fields =>
    dict fields fun field _ => induction_parts scalar list dict date datetime field.2
  | .date day => date day
  | .datetime moment => datetime moment
termination_by value => sizeOf value
decreasing_by
  · have := List.sizeOf_lt_of_mem ‹_›
    simp only [Value.list.sizeOf_spec]
    omega
  · have := List.sizeOf_lt_of_mem ‹_›
    obtain ⟨name, value⟩ := field
    simp only [Value.dict.sizeOf_spec, Prod.mk.sizeOf_spec] at this ⊢
    omega

/-- Plain equality is transitive. -/
theorem equals_trans {x y z : Value} (first : x.equals y = true) (second : y.equals z = true) :
    x.equals z = true := by
  -- Values of different kinds are never equal, so all three are of one kind.
  induction x using induction_parts generalizing y z with
  | scalar left =>
    cases y <;> simp only [equals, Bool.false_eq_true] at first
    cases z <;> simp only [equals, Bool.false_eq_true] at second ⊢
    exact Scalar.equals_trans first second
  | list items ih =>
    cases y <;> simp only [equals, Bool.false_eq_true] at first
    cases z <;> simp only [equals, Bool.false_eq_true] at second ⊢
    -- The lists are followed in step, and the claim for single items is at hand.
    rename_i middles lasts
    induction items generalizing middles lasts with
    | nil =>
      cases middles <;> simp only [equalsItems, Bool.false_eq_true] at first
      exact second
    | cons item rest ihItems =>
      cases middles <;> simp only [equalsItems, Bool.false_eq_true] at first
      cases lasts <;> simp only [equalsItems, Bool.false_eq_true] at second ⊢
      rw [Bool.and_eq_true] at first second ⊢
      obtain ⟨here, others⟩ := List.forall_mem_cons.mp ih
      exact ⟨here first.1 second.1, ihItems others _ first.2 _ second.2⟩
  | dict fields ih =>
    cases y <;> simp only [equals, Bool.false_eq_true] at first
    cases z <;> simp only [equals, Bool.false_eq_true] at second ⊢
    rw [Bool.and_eq_true, beq_iff_eq, equalsFields_iff] at first second ⊢
    -- A field is found in the middle mapping, and that one in the last.
    refine ⟨first.1.trans second.1, fun field member => ?_⟩
    obtain ⟨middle, found, same⟩ := first.2 field member
    obtain ⟨last, found', same'⟩ := second.2 _ (Table.mem_of_lookup? found)
    exact ⟨last, found', ih field member same same'⟩
  | date day =>
    cases y <;> simp only [equals, Bool.false_eq_true, beq_iff_eq] at first
    exact first ▸ second
  | datetime moment =>
    cases y <;> simp only [equals, Bool.false_eq_true] at first
    cases z <;> simp only [equals, Bool.false_eq_true] at second ⊢
    exact DateTime.same_trans first second

/-- Only null equals null. -/
theorem eq_null_of_equals {x : Value} (same : x.equals .null = true) : x = .null := by
  -- Equal scalars are null, texts or quantities alike, and null is neither of the latter.
  cases x <;> simp only [equals, Bool.false_eq_true] at same
  rcases Scalar.equals_iff.mp same with ⟨rfl, -⟩ | ⟨text, -, impossible⟩ | ⟨p, q, -, impossible, -⟩
  · rfl
  · cases impossible
  · cases impossible

/-- Null equals only null. -/
theorem eq_null_of_null_equals {x : Value} (same : equals .null x = true) : x = .null := by
  -- Equal scalars are null, texts or quantities alike, and null is neither of the latter.
  cases x <;> simp only [equals, Bool.false_eq_true] at same
  rcases Scalar.equals_iff.mp same with ⟨-, rfl⟩ | ⟨text, impossible, -⟩ | ⟨p, q, impossible, -, -⟩
  · rfl
  · cases impossible
  · cases impossible

/-- Values are strictly equal if they are equal and both or neither of them are truth values. -/
theorem sameAtomic_iff {x y : Value} : x.sameAtomic y = true ↔
    x.equals y = true ∧ ((∃ truth, x = .bool truth) ↔ ∃ truth, y = .bool truth) := by
  -- The split follows the definition: truth values on both sides, on one of them, or on none.
  have truths : ∀ left right : Bool, (left == right) = (Value.bool left).equals (.bool right) := by
    decide +kernel
  unfold sameAtomic
  split
  · simp [truths]
  · next left notTruth =>
    have other : ¬ ∃ truth, y = .bool truth := fun ⟨truth, same⟩ => notTruth truth same
    simp [other]
  · next left notTruth =>
    have other : ¬ ∃ truth, x = .bool truth := fun ⟨truth, same⟩ => notTruth truth same
    simp [other]
  · next _ notLeft notRight _ =>
    have left : ¬ ∃ truth, x = .bool truth := fun ⟨truth, same⟩ => notLeft truth same
    have right : ¬ ∃ truth, y = .bool truth := fun ⟨truth, same⟩ => notRight truth same
    simp [left, right]

/-- Strict equality is transitive. -/
theorem sameAtomic_trans {x y z : Value} (first : x.sameAtomic y = true)
    (second : y.sameAtomic z = true) : x.sameAtomic z = true := by
  -- Both halves of strict equality are transitive on their own.
  rw [sameAtomic_iff] at first second ⊢
  exact ⟨equals_trans first.1 second.1, first.2.trans second.2⟩

/-- A value that counts as a number is ordered against values that count as numbers. -/
theorem before?_of_left {x y : Value} {p : Number} (counts : x.quantity? = some p) :
    before? x y = y.quantity?.map fun q => p.less q := by
  -- Numbers and truth values count as numbers, and neither is a text, a day or a list.
  cases x with
  | scalar left =>
    cases left <;>
      simp only [quantity?, Scalar.quantity?, Option.some.injEq, reduceCtorEq] at counts <;>
      subst counts
    all_goals
      cases y with
      | scalar right => cases right <;> simp [before?, quantity?, Scalar.quantity?]
      | _ => simp [before?, quantity?]
  | _ => cases counts

/-- Only a value that counts as a number is ordered against one that does. -/
theorem before?_of_right {x y : Value} {q : Number} (counts : y.quantity? = some q) :
    before? x y = x.quantity?.map fun p => p.less q := by
  -- Numbers and truth values count as numbers, and neither is a text, a day or a list.
  cases y with
  | scalar right =>
    cases right <;>
      simp only [quantity?, Scalar.quantity?, Option.some.injEq, reduceCtorEq] at counts <;>
      subst counts
    all_goals
      cases x with
      | scalar left => cases left <;> simp [before?, quantity?, Scalar.quantity?]
      | _ => simp [before?, quantity?]
  | _ => cases counts

/-- The smaller or larger of two values is one of the two. -/
theorem of_chosen {holds : Value → Prop} {x y chosen : Value} {compared : Option Bool}
    (choice : (compared.map fun second => if second then y else x) = some chosen)
    (left : holds x) (right : holds y) : holds chosen := by
  -- The comparison only says which one.
  obtain ⟨second, -, rfl⟩ := Option.map_eq_some_iff.mp choice
  cases second with
  | true => exact right
  | false => exact left

/-- A value is equal to a number if it counts as an equal one. -/
theorem equals_num_iff {x : Value} {n : Number} :
    x.equals (.num n) = true ↔ ∃ quantity, x.quantity? = some quantity ∧
      quantity.equals n = true := by
  -- Only scalars count as numbers.
  cases x with
  | scalar value => simp [equals, Scalar.equals_iff, quantity?, Scalar.quantity?]
  | _ => simp [equals, quantity?]

/-- A number is equal to a value that counts as an equal one. -/
theorem num_equals_iff {x : Value} {n : Number} :
    (Value.num n).equals x = true ↔ ∃ quantity, x.quantity? = some quantity ∧
      n.equals quantity = true := by
  -- Only scalars count as numbers.
  cases x with
  | scalar value => simp [equals, Scalar.equals_iff, quantity?, Scalar.quantity?]
  | _ => simp [equals, quantity?]

/-- A value is at most a number if it counts as one that is. -/
theorem atMost_num_iff {x : Value} {n : Number} :
    x.atMost (.num n) = true ↔ ∃ quantity, x.quantity? = some quantity ∧
      quantity.atMost n = true := by
  -- A value without a quantity is neither smaller nor equal.
  rw [atMost, Bool.or_eq_true, equals_num_iff, less, before?_of_right (q := n) rfl]
  cases x.quantity? <;> simp [Number.atMost]

/-- A number is at most a value that counts as one that is at least it. -/
theorem num_atMost_iff {x : Value} {n : Number} :
    (Value.num n).atMost x = true ↔ ∃ quantity, x.quantity? = some quantity ∧
      n.atMost quantity = true := by
  -- A value without a quantity is neither larger nor equal.
  rw [atMost, Bool.or_eq_true, num_equals_iff, less, before?_of_left (p := n) rfl]
  cases x.quantity? <;> simp [Number.atMost]

/-- Equal values count as equal numbers, or neither of them counts as a number. -/
theorem quantities_of_equals {x y : Value} (same : x.equals y = true) :
    (x.quantity? = none ∧ y.quantity? = none) ∨
      ∃ p q, x.quantity? = some p ∧ y.quantity? = some q ∧ p.equals q = true := by
  -- Values of different kinds are not equal, and only scalars count as numbers.
  cases x <;> cases y <;> simp only [equals, Bool.false_eq_true] at same <;>
    try exact .inl ⟨rfl, rfl⟩
  rcases Scalar.equals_iff.mp same with ⟨rfl, rfl⟩ | ⟨text, rfl, rfl⟩ | counted
  · exact .inl ⟨rfl, rfl⟩
  · exact .inl ⟨rfl, rfl⟩
  · exact .inr counted

end Value
end TrialScript
