import TrialScript.Proofs.Numeric.Defined
import TrialScript.Proofs.Numeric.Monotone

/-! Arithmetic that keeps two ends in order, where both ends are numbers of one kind. -/

namespace TrialScript

namespace Number

variable {n low high low' high' least most : Number} {x y : Binary64}

/-- Two numbers of one kind. -/
def Alike : Number → Number → Prop
  | .int _, .int _ | .float _, .float _ => True
  | _, _ => False

/-- Numbers of one kind are two integers or two binary64 numbers. -/
theorem Alike.cases (alike : low.Alike high) : (∃ a b, low = .int a ∧ high = .int b) ∨
    ∃ x y, low = .float x ∧ high = .float y := by
  -- Being alike is decided by the kinds of both numbers.
  unfold Alike at alike
  split at alike
  · exact .inl ⟨_, _, rfl, rfl⟩
  · exact .inr ⟨_, _, rfl, rfl⟩
  · cases alike

/-- A number on the line converts to the number nearest its units. -/
theorem place?_toFloat {units : Int} (converts : n.toFloat = .ok x)
    (placed : n.place? = some (.point units)) :
    x.place? = (Binary64.nearest units 1).place? := by
  -- Only an integer is rounded by the conversion.
  rcases of_toFloat converts with rfl | ⟨value, rfl, rfl, -⟩
  · -- A number that is binary64 already needs no rounding.
    obtain ⟨finite, rfl⟩ := Binary64.of_place?_point placed
    obtain ⟨finite', units⟩ := x.ofUnits_units false
    have rounded : (Binary64.ofUnits false x.units).place? = _ := Binary64.place?_ofUnits
    rw [← rounded, Binary64.place?_of_isFinite finite, Binary64.place?_of_isFinite finite', units]
  · cases placed
    exact Binary64.place?_ofUnits

/-- A number at an end of the line converts to itself. -/
theorem place?_toFloat_end {place : Place} (converts : n.toFloat = .ok x)
    (placed : n.place? = some place) (ends : ∀ units, place ≠ .point units) :
    x.place? = some place := by
  -- An integer is no end of the line, so the number is binary64 already.
  rcases of_toFloat converts with rfl | ⟨value, rfl, rfl, -⟩
  · exact placed
  · cases placed
    exact absurd rfl (ends _)

/-- Numbers in order convert in order. -/
theorem toFloat_atMost (ordered : low.atMost high = true) (converts : low.toFloat = .ok x)
    (converts' : high.toFloat = .ok y) : (Number.float x).atMost (.float y) = true := by
  obtain ⟨defined, defined'⟩ := not_isNaN_of_atMost ordered
  rw [← (converted converts).2.2] at defined
  rw [← (converted converts').2.2] at defined'
  -- The ends stay where they are, and what is between them is rounded.
  rcases places_of_atMost ordered with lowest | highest | ⟨units, units', left, right, le⟩
  · exact atMost_of_lowest (place?_toFloat_end converts lowest (by simp)) defined'
  · exact atMost_of_highest defined (place?_toFloat_end converts' highest (by simp))
  · rw [Binary64.atMost_congr (place?_toFloat converts left) (place?_toFloat converts' right)]
    exact Binary64.nearest_atMost Nat.one_pos le

/-- With ends of one kind on both sides, either both results are exact or both are rounded. -/
theorem of_combine {exactly : Int → Int → Int} {rounded : Binary64 → Binary64 → Binary64}
    (alike : low.Alike high) (alike' : low'.Alike high')
    (lower : combine exactly rounded low low' = .ok least)
    (upper : combine exactly rounded high high' = .ok most) :
    (∃ a a' b b', low = .int a ∧ low' = .int a' ∧ high = .int b ∧ high' = .int b' ∧
        least = .int (exactly a a') ∧ most = .int (exactly b b')) ∨
      ∃ x x' y y', low.toFloat = .ok x ∧ low'.toFloat = .ok x' ∧ high.toFloat = .ok y ∧
        high'.toFloat = .ok y' ∧ least = .float (rounded x x') ∧ most = .float (rounded y y') := by
  -- Each result was exact or rounded, and alike ends leave no mixture of the two.
  rcases combine_ok lower with ⟨a, a', rfl, rfl, rfl⟩ | ⟨x, x', converts, converts', rfl, mixed⟩ <;>
    rcases combine_ok upper with ⟨b, b', rfl, rfl, rfl⟩ | ⟨y, y', up, up', rfl, mixed'⟩
  · exact .inl ⟨a, a', b, b', rfl, rfl, rfl, rfl, rfl, rfl⟩
  · -- A float among the upper ends has one among the lower ends beside it.
    rcases mixed' with ⟨value, rfl⟩ | ⟨value, rfl⟩
    · cases alike
    · cases alike'
  · rcases mixed with ⟨value, rfl⟩ | ⟨value, rfl⟩
    · cases alike
    · cases alike'
  · exact .inr ⟨x, x', y, y', converts, converts', up, up', rfl, rfl⟩

section Rounding

/-- The nearest integer to a distance in units, halves going away from zero. -/
def wholeUnits (distance : Nat) : Nat :=
  if Binary64.unitsPerOne ≤ 2 * (distance % Binary64.unitsPerOne) then
    distance / Binary64.unitsPerOne + 1
  else distance / Binary64.unitsPerOne

/-- A larger distance comes to no smaller integer. -/
theorem wholeUnits_mono {distance farther : Nat} (more : distance ≤ farther) :
    wholeUnits distance ≤ wholeUnits farther := by
  have parts := Nat.div_add_mod distance Binary64.unitsPerOne
  have parts' := Nat.div_add_mod farther Binary64.unitsPerOne
  have grows : distance / Binary64.unitsPerOne ≤ farther / Binary64.unitsPerOne :=
    Nat.div_le_div_right more
  unfold wholeUnits
  generalize distance / Binary64.unitsPerOne = floor at *
  generalize farther / Binary64.unitsPerOne = floor' at *
  -- With the same integer part the rests decide, and otherwise there is room to round up.
  rcases Nat.lt_or_eq_of_le grows with less | rfl
  · split <;> split <;> omega
  · split <;> split <;> omega

/-- Nothing is rounded to nothing. -/
theorem wholeUnits_zero : wholeUnits 0 = 0 := by
  have one := Binary64.unitsPerOne_pos
  simp only [wholeUnits, Nat.zero_mod, Nat.zero_div]
  exact if_neg (by omega)

/-- The nearest integer to a count of units, halves going away from zero. -/
def wholes (units : Int) : Int :=
  if units < 0 then -(wholeUnits units.natAbs : Int) else wholeUnits units.natAbs

/-- A larger count of units comes to no smaller integer. -/
theorem wholes_mono {units more : Int} (ordered : units ≤ more) : wholes units ≤ wholes more := by
  -- The sign of both counts decides which of the two ways of counting rises.
  have falling (negative : more < 0) :=
    wholeUnits_mono (show more.natAbs ≤ units.natAbs by omega)
  have rising (nonneg : 0 ≤ units) :=
    wholeUnits_mono (show units.natAbs ≤ more.natAbs by omega)
  unfold wholes
  split <;> split <;> omega

/-- A number is rounded by its distance from zero, on its own side. -/
theorem roundHalfAway_eq_wholes (x : Binary64) : x.roundHalfAway = wholes x.units := by
  have distance : x.roundHalfAway =
      if x.isNegative then -(wholeUnits x.magnitude : Int) else wholeUnits x.magnitude := by
    unfold Binary64.roundHalfAway wholeUnits
    generalize Binary64.unitsPerOne = one
    split <;> split <;> simp_all
  rw [distance]
  cases signed : x.isNegative with
  | false =>
    rw [if_neg Bool.false_ne_true, Binary64.units_eq_magnitude signed, wholes,
      if_neg (by omega), Int.natAbs_natCast]
  | true =>
    have below : x.units = -(x.magnitude : Int) := if_pos signed
    rw [if_pos rfl, below, wholes, Int.natAbs_neg, Int.natAbs_natCast]
    -- Only nothing is on neither side of zero, and it is rounded to nothing.
    rcases Nat.eq_zero_or_pos x.magnitude with none | some
    · rw [none, wholeUnits_zero]
      rfl
    · rw [if_pos (by omega)]

/-- A number on the line is rounded to the integer nearest its units. -/
theorem roundHalfAway_point {units : Int} {rounded : Number} (gave : n.roundHalfAway = .ok rounded)
    (placed : n.place? = some (.point units)) : rounded = .int (wholes units) := by
  have one := Binary64.unitsPerOne_pos
  cases n with
  | int value =>
    obtain ⟨x, -, gave⟩ := check_bind_ok gave
    cases gave
    cases placed
    -- An integer is a number of ones already.
    have whole : wholeUnits (value * Binary64.unitsPerOne).natAbs = value.natAbs := by
      rw [Int.natAbs_mul, Int.natAbs_natCast, wholeUnits, Nat.mul_mod_left,
        if_neg (Nat.not_le.mpr one), Nat.mul_div_cancel _ one]
    have sides : value * Binary64.unitsPerOne < 0 * Binary64.unitsPerOne ↔ value < 0 :=
      Int.mul_lt_mul_right Binary64.natCast_unitsPerOne_pos
    rw [Int.zero_mul] at sides
    simp only [wholes, whole, sides, Number.int.injEq]
    split <;> omega
  | float x =>
    obtain ⟨finite, rfl⟩ := Binary64.of_place?_point placed
    rw [roundHalfAway, if_pos finite] at gave
    cases gave
    rw [roundHalfAway_eq_wholes]

/-- A number at an end of the line stays as it is. -/
theorem roundHalfAway_end {place : Place} {rounded : Number} (gave : n.roundHalfAway = .ok rounded)
    (placed : n.place? = some place) (ends : ∀ units, place ≠ .point units) : rounded = n := by
  -- Only what is finite is rounded, and every finite number is a point.
  cases n with
  | int value =>
    cases placed
    exact absurd rfl (ends _)
  | float x =>
    cases x with
    | nan | infinite => cases gave; rfl
    | finite =>
      cases placed
      exact absurd rfl (ends _)

/-- A number that is defined is rounded to one that is. -/
theorem isNaN_roundHalfAway {rounded : Number} (gave : n.roundHalfAway = .ok rounded)
    (defined : n.isNaN = false) : rounded.isNaN = false := by
  -- The place of a defined number decides: an end stays, and a point is rounded to an integer.
  obtain ⟨place, placed⟩ := place_of_not_isNaN defined
  cases place with
  | lowest | highest =>
    rw [roundHalfAway_end gave placed (by simp)]
    exact defined
  | point units =>
    rw [roundHalfAway_point gave placed]
    rfl

/-- Numbers in order are rounded in order. -/
theorem roundHalfAway_mono (ordered : low.atMost high = true)
    (lower : low.roundHalfAway = .ok least) (upper : high.roundHalfAway = .ok most) :
    least.atMost most = true := by
  obtain ⟨defined, defined'⟩ := not_isNaN_of_atMost ordered
  -- The ends stay where they are, and what is between them is rounded.
  rcases places_of_atMost ordered with lowest | highest | ⟨units, units', left, right, le⟩
  · rw [roundHalfAway_end lower lowest (by simp)]
    exact atMost_of_lowest lowest (isNaN_roundHalfAway upper defined')
  · rw [roundHalfAway_end upper highest (by simp)]
    exact atMost_of_highest (isNaN_roundHalfAway lower defined) highest
  · rw [roundHalfAway_point lower left, roundHalfAway_point upper right]
    exact int_atMost_int (wholes_mono le)

end Rounding

end Number

/--
A function keeps two pairs of ends in order, lower with lower and upper with upper.

It takes the smaller or the larger number, adds, or takes the same number away. It multiplies by
the same number or by ends that are not below zero, or divides by the same number above zero.
-/
inductive Arithmetic.Ascends : Arithmetic → Number → Number → Number → Number → Prop where
  | least (low high low' high' : Number) : Ascends .least low high low' high'
  | greatest (low high low' high' : Number) : Ascends .greatest low high low' high'
  -- Ends of two kinds are rounded apart from each other, which can take them past one another.
  | add {low high low' high' : Number} (alike : low.Alike high) (alike' : low'.Alike high') :
      Ascends .add low high low' high'
  -- Taking different ends away would need them the other way around.
  | subtract {low high : Number} (alike : low.Alike high) (n : Number) :
      Ascends .subtract low high n n
  | multiply {low high low' high' : Number} (alike : low.Alike high) (alike' : low'.Alike high')
      (nonneg : (Number.int 0).atMost low = true) (nonneg' : (Number.int 0).atMost low' = true) :
      Ascends .multiply low high low' high'
  | scale {low high n : Number} (alike : low.Alike high)
      (nonneg : (Number.int 0).atMost n = true) : Ascends .multiply low high n n
  | scaled {low high n : Number} (alike : low.Alike high)
      (nonneg : (Number.int 0).atMost n = true) : Ascends .multiply n n low high
  | divide {low high n : Number} (alike : low.Alike high)
      (positive : (Number.int 0).less n = true) : Ascends .divide low high n n

namespace Number

variable {low high low' high' least most n : Number}

/-- A number is of one kind with itself. -/
theorem Alike.refl (n : Number) : n.Alike n := by
  cases n <;> trivial

/-- The smaller numbers of two pairs of ends are in order. -/
theorem least_mono (ordered : low.atMost high = true) (ordered' : low'.atMost high' = true) :
    (low.least low').atMost (high.least high') = true := by
  -- The smaller of the upper numbers is one of them, and the smaller lower one is below both.
  obtain ⟨defined, -⟩ := not_isNaN_of_atMost ordered
  obtain ⟨defined', -⟩ := not_isNaN_of_atMost ordered'
  obtain ⟨first, second⟩ := least_atMost defined defined'
  rcases least_cases high high' with same | same <;> rw [same]
  · exact atMost_trans first ordered
  · exact atMost_trans second ordered'

/-- The larger numbers of two pairs of ends are in order. -/
theorem greatest_mono (ordered : low.atMost high = true) (ordered' : low'.atMost high' = true) :
    (low.greatest low').atMost (high.greatest high') = true := by
  -- The larger of the lower numbers is one of them, and the larger upper one is above both.
  obtain ⟨-, defined⟩ := not_isNaN_of_atMost ordered
  obtain ⟨-, defined'⟩ := not_isNaN_of_atMost ordered'
  obtain ⟨first, second⟩ := atMost_greatest defined defined'
  rcases greatest_cases low low' with same | same <;> rw [same]
  · exact atMost_trans ordered first
  · exact atMost_trans ordered' second

/-- Sums of ends are in order. -/
theorem add_mono (alike : low.Alike high) (alike' : low'.Alike high')
    (ordered : low.atMost high = true) (ordered' : low'.atMost high' = true)
    (lower : low.add low' = .ok least) (upper : high.add high' = .ok most)
    (defined : least.isNaN = false) (defined' : most.isNaN = false) :
    least.atMost most = true := by
  -- Integers are added exactly, and anything else after a conversion that keeps the order.
  rcases of_combine alike alike' lower upper with
    ⟨a, a', b, b', rfl, rfl, rfl, rfl, rfl, rfl⟩ |
    ⟨x, x', y, y', first, second, third, fourth, rfl, rfl⟩
  · exact int_atMost_int (Int.add_le_add (le_of_int_atMost ordered) (le_of_int_atMost ordered'))
  · exact Binary64.add_atMost (toFloat_atMost ordered first third)
      (toFloat_atMost ordered' second fourth) defined defined'

/-- Ends that the same number is taken from stay in order. -/
theorem sub_mono (alike : low.Alike high) (ordered : low.atMost high = true)
    (same : n.atMost n = true) (lower : low.sub n = .ok least) (upper : high.sub n = .ok most)
    (defined : least.isNaN = false) (defined' : most.isNaN = false) :
    least.atMost most = true := by
  -- The number that is taken away is the same on both sides, and so is what it converts to.
  rcases of_combine alike (.refl n) lower upper with
    ⟨a, c, b, c', rfl, rfl, rfl, again, rfl, rfl⟩ |
    ⟨x, z, y, z', converts, first, converts', again, rfl, rfl⟩
  · cases again
    exact int_atMost_int (Int.sub_le_sub_right (le_of_int_atMost ordered) _)
  · cases first.symm.trans again
    exact Binary64.sub_atMost (toFloat_atMost ordered converts converts')
      (toFloat_atMost same first first) defined defined'

/-- Zero converts to zero. -/
theorem toFloat_zero : (Number.int 0).toFloat = .ok (.zero false) := by
  decide +kernel

/-- Products of ends are in order, where one side stays the same or neither is below zero. -/
theorem mul_mono (alike : low.Alike high) (alike' : low'.Alike high')
    (ordered : low.atMost high = true) (ordered' : low'.atMost high' = true)
    (nonneg : (Number.int 0).atMost low' = true)
    (either : low' = high' ∨ (Number.int 0).atMost low = true)
    (lower : low.mul low' = .ok least) (upper : high.mul high' = .ok most)
    (defined : least.isNaN = false) (defined' : most.isNaN = false) :
    least.atMost most = true := by
  -- The two kinds of results are compared in their own ways, by the same facts about the signs.
  rcases of_combine alike alike' lower upper with
    ⟨a, a', b, b', rfl, rfl, rfl, rfl, rfl, rfl⟩ |
    ⟨x, x', y, y', first, second, third, fourth, rfl, rfl⟩
  · -- Products of integers are exact.
    have above := le_of_int_atMost nonneg
    refine int_atMost_int ?_
    rcases either with same | aboveLeft
    · cases same
      exact Int.mul_le_mul_of_nonneg_right (le_of_int_atMost ordered) above
    · exact Int.mul_le_mul (le_of_int_atMost ordered) (le_of_int_atMost ordered') above
        (Int.le_trans (le_of_int_atMost aboveLeft) (le_of_int_atMost ordered))
  · -- Conversion keeps all of the order, and so the sides of zero.
    refine Binary64.mul_atMost (toFloat_atMost ordered first third)
      (toFloat_atMost ordered' second fourth) (toFloat_atMost nonneg toFloat_zero second) ?_
      defined defined'
    rcases either with rfl | aboveLeft
    · cases second.symm.trans fourth
      exact .inl rfl
    · exact .inr (toFloat_atMost aboveLeft toFloat_zero first)

/-- A product is the same from either side. -/
theorem mul_swap {left right result : Number} (gave : left.mul right = .ok result) :
    right.mul left = .ok result := by
  -- Exact products commute, and so do rounded ones.
  rcases combine_ok gave with ⟨a, b, rfl, rfl, rfl⟩ | ⟨x, y, converts, converts', rfl, mixed⟩
  · rw [Int.mul_comm]
    rfl
  · -- Both numbers convert, whichever comes first.
    rw [Binary64.mul_comm]
    refine combine_of_toFloat ?_ converts' converts
    rintro ⟨isRight, isLeft⟩
    rcases mixed with ⟨value, rfl⟩ | ⟨value, rfl⟩
    · cases isLeft
    · cases isRight

/-- Zero of any kind and sign is at one place. -/
theorem isZero_iff_place : n.isZero = true ↔ n.place? = some (.point 0) := by
  -- Each kind of number has its own test for zero, and none but zero has no units.
  have positive := Binary64.unitsPerOne_pos
  cases n with
  | int value =>
    simp only [isZero, place?, beq_iff_eq, Option.some.injEq, Place.point.injEq, Int.mul_eq_zero]
    omega
  | float x =>
    cases x with
    | nan => simp [isZero, place?, Binary64.isZero, Binary64.isFinite, Binary64.place?]
    | infinite negative =>
      cases negative <;> simp [isZero, place?, Binary64.isZero, Binary64.isFinite, Binary64.place?]
    | finite negative significand exponent canonical =>
      cases negative <;> simp [isZero, place?, Binary64.isZero, Binary64.isFinite, Binary64.place?,
        Binary64.units, Binary64.isNegative, Binary64.magnitude]

/-- A number is above zero if it is at least zero and not zero. -/
theorem zero_less_iff {zero : Number} (isZero : zero.isZero = true) :
    zero.less n = true ↔ zero.atMost n = true ∧ n.isZero = false := by
  have placed := isZero_iff_place.mp isZero
  constructor
  · intro above
    refine ⟨atMost_of_less above, ?_⟩
    -- Two zeros are at the same place, which is not before itself.
    by_contra other
    obtain ⟨first, second, left, right, before⟩ := less_iff.mp above
    cases placed.symm.trans left
    cases (isZero_iff_place.mp (by simpa using other)).symm.trans right
    cases before
  · intro above
    obtain ⟨atLeast, away⟩ := above
    rw [atMost, Bool.or_eq_true] at atLeast
    refine atLeast.resolve_right fun same => ?_
    obtain ⟨place, left, right⟩ := equals_iff.mp same
    cases placed.symm.trans left
    exact Bool.false_ne_true (away.symm.trans (isZero_iff_place.mpr right))

/-- A number above zero converts to one above zero. -/
theorem zero_less_toFloat {z : Binary64} (positive : (Number.int 0).less n = true)
    (converts : n.toFloat = .ok z) : (Number.float (.zero false)).less (.float z) = true := by
  obtain ⟨nonneg, away⟩ := (zero_less_iff rfl).mp positive
  exact (zero_less_iff (by rfl)).mpr
    ⟨toFloat_atMost nonneg toFloat_zero converts, isZero_toFloat away converts⟩

/-- A quotient by a number that is not zero is exact for integers and rounded for others. -/
theorem divide_ok {left right result : Number} (away : right.isZero = false)
    (gave : left.divide right = .ok result) :
    (∃ a b, left = .int a ∧ right = .int b ∧ result = .float (.ofQuotient a b)) ∨
      ∃ x y, left.toFloat = .ok x ∧ right.toFloat = .ok y ∧ result = .float (x.div y) ∧
        ((∃ value, left = .float value) ∨ ∃ value, right = .float value) := by
  -- Two integers have an exact quotient; otherwise both sides are converted first.
  rw [divide_eq, if_neg (by simp [away])] at gave
  split at gave
  · split at gave <;> cases gave
    exact .inl ⟨_, _, rfl, rfl, rfl⟩
  · next mixed =>
    obtain ⟨x, converts, gave⟩ := check_bind_ok gave
    obtain ⟨y, converts', gave⟩ := check_bind_ok gave
    cases gave
    exact .inr ⟨x, y, converts, converts', rfl, exists_float (not_both_isInt mixed)⟩

/-- The place of a quotient by an integer above zero is that of the rounded quotient of units. -/
theorem place?_ofQuotient {a b : Int} (positive : 0 < b) : (Binary64.ofQuotient a b).place? =
    (Binary64.nearest (a * Binary64.unitsPerOne) b.natAbs).place? := by
  -- The sign of the quotient is that of the numerator, since the denominator is above zero.
  refine Binary64.place?_round (by omega) ?_
  rw [decide_eq_false (show ¬ b < 0 by omega), Bool.xor_false]
  simp only [decide_eq_true_eq]
  split
  · rw [Int.natCast_mul, ← Int.neg_mul]
    congr 1
    omega
  · rw [Int.natCast_mul]
    congr 1
    omega

/-- Ends over the same number above zero are in order. -/
theorem divide_mono (alike : low.Alike high) (ordered : low.atMost high = true)
    (positive : (Number.int 0).less n = true) (lower : low.divide n = .ok least)
    (upper : high.divide n = .ok most) (defined : least.isNaN = false)
    (defined' : most.isNaN = false) : least.atMost most = true := by
  -- Ends of one kind are both divided exactly or both rounded; the mixtures contradict that.
  obtain ⟨-, away⟩ := (zero_less_iff rfl).mp positive
  rcases divide_ok away lower with
    ⟨a, c, rfl, rfl, rfl⟩ | ⟨x, z, converts, divisor, rfl, mixed⟩ <;>
  rcases divide_ok away upper with
    ⟨b, c', rfl, same, rfl⟩ | ⟨y, z', converts', again, rfl, mixed'⟩
  · cases same
    rw [int_less_int, decide_eq_true_eq] at positive
    rw [Binary64.atMost_congr (place?_ofQuotient positive) (place?_ofQuotient positive)]
    refine Binary64.nearest_atMost (by omega) ?_
    exact Int.mul_le_mul_of_nonneg_right (le_of_int_atMost ordered) (Int.natCast_nonneg _)
  · -- A float among the ends has one beside it.
    rcases mixed' with ⟨value, rfl⟩ | ⟨value, other⟩
    · cases alike
    · cases other
  · subst same
    rcases mixed with ⟨value, rfl⟩ | ⟨value, other⟩
    · cases alike
    · cases other
  · cases divisor.symm.trans again
    exact Binary64.div_atMost (toFloat_atMost ordered converts converts')
      (zero_less_toFloat positive divisor) defined defined'

end Number

/-- Ends that a function keeps in order have results in order, if these are defined. -/
theorem Arithmetic.Ascends.atMost {function : Arithmetic} {low high low' high' least most : Number}
    (ascends : function.Ascends low high low' high') (ordered : low.atMost high = true)
    (ordered' : low'.atMost high' = true) (lower : function.apply low low' = .ok least)
    (upper : function.apply high high' = .ok most) (defined : least.isNaN = false)
    (defined' : most.isNaN = false) : least.atMost most = true := by
  -- Each way to keep the order has its own lemma about the function that it names.
  cases ascends with
  | least =>
    cases lower
    cases upper
    exact Number.least_mono ordered ordered'
  | greatest =>
    cases lower
    cases upper
    exact Number.greatest_mono ordered ordered'
  | add alike alike' =>
    exact Number.add_mono alike alike' ordered ordered' lower upper defined defined'
  | subtract alike => exact Number.sub_mono alike ordered ordered' lower upper defined defined'
  | multiply alike alike' nonneg nonneg' =>
    exact Number.mul_mono alike alike' ordered ordered' nonneg' (.inr nonneg) lower upper defined
      defined'
  | scale alike nonneg =>
    exact Number.mul_mono alike (.refl _) ordered ordered' nonneg (.inl rfl) lower upper defined
      defined'
  | scaled alike nonneg =>
    exact Number.mul_mono alike (.refl _) ordered' ordered nonneg (.inl rfl)
      (Number.mul_swap lower) (Number.mul_swap upper) defined defined'
  | divide alike positive =>
    exact Number.divide_mono alike ordered positive lower upper defined defined'

end TrialScript
