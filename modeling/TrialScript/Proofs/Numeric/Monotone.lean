import TrialScript.Proofs.Numeric.Whole

/-! Rounding keeps the order of quotients, and so do operations that rise before being rounded. -/

namespace TrialScript

namespace Number

variable {x y : Number}

/-- What is at the lowest place is at most any number. -/
theorem atMost_of_lowest (placed : x.place? = some .lowest) (defined : y.isNaN = false) :
    x.atMost y = true := by
  obtain ⟨place, found⟩ := place_of_not_isNaN defined
  refine atMost_iff.mpr ⟨.lowest, place, placed, found, ?_⟩
  cases place <;> simp [Place.before]

/-- Any number is at most what is at the highest place. -/
theorem atMost_of_highest (defined : x.isNaN = false) (placed : y.place? = some .highest) :
    x.atMost y = true := by
  obtain ⟨place, found⟩ := place_of_not_isNaN defined
  refine atMost_iff.mpr ⟨place, .highest, found, placed, ?_⟩
  cases place <;> simp [Place.before]

/-- Of two numbers in order one is at its own end, or both are on the line with units in order. -/
theorem places_of_atMost (ordered : x.atMost y = true) :
    x.place? = some .lowest ∨ y.place? = some .highest ∨ ∃ units units',
      x.place? = some (.point units) ∧ y.place? = some (.point units') ∧ units ≤ units' := by
  -- The order of places is looked up for each pair of places.
  obtain ⟨first, second, left, right, places⟩ := atMost_iff.mp ordered
  cases first with
  | lowest => exact .inl left
  | highest =>
    cases second with
    | highest => exact .inr (.inl right)
    | lowest | point => simp [Place.before] at places
  | point units =>
    cases second with
    | highest => exact .inr (.inl right)
    | lowest => simp [Place.before] at places
    | point units' =>
      refine .inr (.inr ⟨units, units', left, right, ?_⟩)
      simp only [Place.before, decide_eq_true_eq, Place.point.injEq] at places
      omega

end Number

namespace Binary64

section Quotients

variable {numerator larger denominator : Nat} {negative negative' : Bool}

/-- A larger quotient is rounded to no smaller whole number. -/
theorem nearestEven_mono (more : numerator ≤ larger) :
    nearestEven numerator denominator ≤ nearestEven larger denominator := by
  have parts := Nat.div_add_mod numerator denominator
  have parts' := Nat.div_add_mod larger denominator
  have grows : numerator / denominator ≤ larger / denominator := Nat.div_le_div_right more
  unfold nearestEven
  dsimp only
  generalize numerator / denominator = floor at *
  generalize larger / denominator = floor' at *
  -- With the same integer part the rests decide, and otherwise there is room to round up.
  rcases Nat.lt_or_eq_of_le grows with less | rfl
  · grind
  · have rests : numerator % denominator ≤ larger % denominator := by omega
    grind

/-- A larger quotient has no smaller exponent. -/
theorem exponentOf_mono (more : numerator ≤ larger) :
    exponentOf numerator denominator ≤ exponentOf larger denominator := by
  -- The leading bit does not fall when the quotient grows.
  have grows : numerator / denominator ≤ larger / denominator := Nat.div_le_div_right more
  have bits : Nat.log2 (numerator / denominator) ≤ Nat.log2 (larger / denominator) := by
    rcases Nat.eq_zero_or_pos (numerator / denominator) with none | some
    · rw [none, Nat.log2_zero]
      exact Nat.zero_le _
    · exact (Nat.le_log2 (by omega)).mpr (Nat.le_trans (Nat.log2_self_le (by omega)) grows)
  unfold exponentOf
  omega

/-- A quotient no larger than one that stays finite does so too, and comes no farther from zero. -/
theorem magnitude_round_mono (divides : 0 < denominator) (more : numerator ≤ larger)
    (finite : (round negative' larger denominator).isFinite = true) :
    (round negative numerator denominator).isFinite = true ∧
      (round negative numerator denominator).magnitude ≤
        (round negative' larger denominator).magnitude := by
  -- Below the limit the larger quotient is finite, and so is the smaller one.
  have below : larger < limit * unitsPerOne * denominator := by
    rw [← Nat.not_le, ← isInfinite_round divides, (isFinite_iff.mp finite).2]
    exact Bool.false_ne_true
  have finite' : (round negative numerator denominator).isFinite = true :=
    isFinite_round divides (Nat.lt_of_le_of_lt more below)
  refine ⟨finite', ?_⟩
  have place : ∀ exponent, 0 < denominator * 2 ^ exponent :=
    fun exponent => Nat.mul_pos divides (Nat.two_pow_pos exponent)
  rw [magnitude_round finite, magnitude_round finite']
  have finer : exponentOf numerator denominator ≤ exponentOf larger denominator :=
    exponentOf_mono more
  rcases Nat.lt_or_eq_of_le finer with less | same
  · -- A finer quotient stays below the leading bit of the coarser one.
    have carried : nearestEven numerator (denominator * 2 ^ exponentOf numerator denominator) ≤
        2 ^ 53 := nearestEven_le (place _) (Nat.le_of_lt (quotient_lt divides))
    have leading : 2 ^ 52 ≤ nearestEven larger (denominator * 2 ^ exponentOf larger denominator) :=
      le_nearestEven (place _) (leading_le (Nat.zero_lt_of_lt less) divides)
    calc nearestEven numerator (denominator * 2 ^ exponentOf numerator denominator) *
          2 ^ exponentOf numerator denominator
        ≤ 2 ^ 53 * 2 ^ exponentOf numerator denominator := Nat.mul_le_mul_right _ carried
      _ = 2 ^ 52 * 2 ^ (exponentOf numerator denominator + 1) := by rw [Nat.pow_succ]; omega
      _ ≤ 2 ^ 52 * 2 ^ exponentOf larger denominator :=
        Nat.mul_le_mul_left _ (Nat.pow_le_pow_right Nat.two_pos less)
      _ ≤ nearestEven larger (denominator * 2 ^ exponentOf larger denominator) *
          2 ^ exponentOf larger denominator := Nat.mul_le_mul_right _ leading
  · rw [same]
    exact Nat.mul_le_mul_right _ (nearestEven_mono more)

end Quotients

/-- The number nearest a quotient of a count of units, which keeps its side of zero. -/
def nearest (total : Int) (denominator : Nat) : Binary64 :=
  round (decide (total < 0)) total.natAbs denominator

section Nearest

variable {x y : Binary64} {total other : Int} {denominator : Nat} {negative : Bool}

/-- How two numbers compare depends on their places alone. -/
theorem atMost_congr {x' y' : Binary64} (same : x.place? = x'.place?)
    (same' : y.place? = y'.place?) :
    (Number.float x).atMost (.float y) = (Number.float x').atMost (.float y') := by
  simp only [Number.atMost, Number.less, Number.equals, Number.place?, same, same']

/-- Numbers in order are finite and in the order of their units, unless one is at its own end. -/
theorem units_le_of_atMost (ordered : (Number.float x).atMost (.float y) = true)
    (above : x ≠ .infinite true) (below : y ≠ .infinite false) :
    x.isFinite = true ∧ y.isFinite = true ∧ x.units ≤ y.units := by
  -- Only an infinite number is at an end of the line.
  rcases Number.places_of_atMost ordered with low | high | ⟨units, units', left, right, le⟩
  · cases x with
    | nan | finite => cases low
    | infinite negative =>
      cases negative with
      | true => exact absurd rfl above
      | false => cases low
  · cases y with
    | nan | finite => cases high
    | infinite negative =>
      cases negative with
      | true => cases high
      | false => exact absurd rfl below
  · obtain ⟨finite, rfl⟩ := of_place?_point left
    obtain ⟨finite', rfl⟩ := of_place?_point right
    exact ⟨finite, finite', le⟩

/-- A rounded quotient is defined. -/
theorem isNaN_nearest : (nearest total denominator).isNaN = false :=
  isNaN_round

/-- A rounded quotient that is not finite is at the end of its sign. -/
theorem nearest_of_not_isFinite (unbounded : (nearest total denominator).isFinite = false) :
    nearest total denominator = .infinite (decide (total < 0)) := by
  -- What is left is the infinite number, whose sign is that of the count.
  have signed : (nearest total denominator).isNegative = decide (total < 0) :=
    isNegative_round _ _ _
  have defined : (nearest total denominator).isNaN = false := isNaN_nearest
  generalize nearest total denominator = rounded at *
  cases rounded with
  | nan => cases defined
  | infinite negative => exact congrArg _ signed
  | finite => cases unbounded

/-- The units of a rounded quotient are its distance from zero on the side of the quotient. -/
theorem units_nearest : (nearest total denominator).units =
    if total < 0 then -((nearest total denominator).magnitude : Int)
    else (nearest total denominator).magnitude := by
  rw [units, nearest, isNegative_round]
  simp only [decide_eq_true_eq]

/-- With each on its own side of zero, a rounded quotient is no farther away than a larger one. -/
theorem nearest_mono (divides : 0 < denominator) (nearer : total.natAbs ≤ other.natAbs)
    (finite : (nearest other denominator).isFinite = true) :
    (nearest total denominator).isFinite = true ∧
      (nearest total denominator).magnitude ≤ (nearest other denominator).magnitude :=
  magnitude_round_mono divides nearer finite

/-- Rounding keeps the order of quotients of the same divisor. -/
theorem nearest_atMost (divides : 0 < denominator) (ordered : total ≤ other) :
    (Number.float (nearest total denominator)).atMost (.float (nearest other denominator)) =
      true := by
  -- On either side of zero the farther quotient is the one that may be infinite.
  cases bottom : (nearest total denominator).isFinite with
  | true =>
    cases top : (nearest other denominator).isFinite with
    | true =>
      rw [atMost_iff_units bottom top, units_nearest, units_nearest]
      have falling (negative : other < 0) :=
        (nearest_mono divides (show other.natAbs ≤ total.natAbs by omega) bottom).2
      have rising (nonneg : 0 ≤ total) :=
        (nearest_mono divides (show total.natAbs ≤ other.natAbs by omega) top).2
      split <;> split <;> omega
    | false =>
      -- If the greater quotient overflows below zero, so would the smaller one.
      have nonneg : ¬ other < 0 := by
        intro negative
        have finite := (nearest_mono divides (show other.natAbs ≤ total.natAbs by omega) bottom).1
        exact Bool.false_ne_true (top.symm.trans finite)
      rw [nearest_of_not_isFinite top, decide_eq_false nonneg]
      exact Number.atMost_of_highest isNaN_nearest rfl
  | false =>
    cases top : (nearest other denominator).isFinite with
    | true =>
      have negative : total < 0 := by
        by_contra nonneg
        have finite := (nearest_mono divides (show total.natAbs ≤ other.natAbs by omega) top).1
        exact Bool.false_ne_true (bottom.symm.trans finite)
      rw [nearest_of_not_isFinite bottom, decide_eq_true negative]
      exact Number.atMost_of_lowest rfl isNaN_nearest
    | false =>
      rw [nearest_of_not_isFinite bottom, nearest_of_not_isFinite top]
      -- Both are infinite, at the low end if the lower total is below zero, else at the high end.
      by_cases negative : total < 0
      · rw [decide_eq_true negative]
        exact Number.atMost_of_lowest rfl rfl
      · rw [decide_eq_false (show ¬ other < 0 by omega)]
        exact Number.atMost_of_highest rfl rfl

/-- Rounding a quotient with either sign comes to the same place as with the sign of its count. -/
theorem place?_round (divides : 0 < denominator) {numerator : Nat}
    (signed : total = if negative then -(numerator : Int) else numerator) :
    (round negative numerator denominator).place? = (nearest total denominator).place? := by
  by_cases none : numerator = 0
  · -- Nothing comes to the same place with either sign.
    subst none
    have zero : total = 0 := by simpa using signed
    have places (sign : Bool) : (round sign 0 denominator).place? = some (.point 0) := by
      have finite : (round sign 0 denominator).isFinite = true :=
        isFinite_round divides (Nat.mul_pos (Nat.mul_pos limit_pos unitsPerOne_pos) divides)
      rw [place?_of_isFinite finite, units, magnitude_round_zero divides finite]
      simp
    rw [zero, nearest, Int.natAbs_zero, places, places]
  · have sign : negative = decide (total < 0) := by
      cases negative <;> simp at signed <;> simp only [signed] <;> grind
    have distance : total.natAbs = numerator := by
      split at signed <;> omega
    rw [nearest, ← sign, distance]

/-- A rounded count of units is at the place of the nearest number, whichever sign its zero has. -/
theorem place?_ofUnits : (ofUnits negative total).place? = (nearest total 1).place? := by
  -- Zero is at one place with either sign.
  by_cases zero : total = 0
  · subst zero
    cases negative <;> decide +kernel
  · rw [ofUnits_of_ne_zero zero, nearest]

end Nearest

section Operations

variable {x x' y y' : Binary64} {negative : Bool}

/-- A sum with an infinite number is infinite, unless it is undefined. -/
theorem add_infinite (end' : x = .infinite negative ∨ y = .infinite negative)
    (defined : (x.add y).isNaN = false) : x.add y = .infinite negative := by
  -- Another infinite number has the same sign, because the sum is defined.
  rcases end' with rfl | rfl
  · cases y with
    | nan => cases defined
    | infinite other =>
      rw [add] at defined ⊢
      split at defined
      · next same => rw [if_pos same]
      · cases defined
    | finite => rfl
  · cases x with
    | nan => cases defined
    | infinite other =>
      rw [add] at defined ⊢
      split at defined
      · next same => rw [if_pos same, same]
      · cases defined
    | finite => rfl

/-- Sums keep the order of both sides. -/
theorem add_atMost (ordered : (Number.float x).atMost (.float x') = true)
    (ordered' : (Number.float y).atMost (.float y') = true)
    (defined : (x.add y).isNaN = false) (defined' : (x'.add y').isNaN = false) :
    (Number.float (x.add y)).atMost (.float (x'.add y')) = true := by
  -- Only two finite numbers are rounded.
  by_cases low : x = .infinite true ∨ y = .infinite true
  · rw [add_infinite low defined]
    exact Number.atMost_of_lowest rfl defined'
  by_cases high : x' = .infinite false ∨ y' = .infinite false
  · rw [add_infinite high defined']
    exact Number.atMost_of_highest defined rfl
  rw [not_or] at low high
  obtain ⟨finite, finite', units⟩ := units_le_of_atMost ordered low.1 high.1
  obtain ⟨others, others', otherUnits⟩ := units_le_of_atMost ordered' low.2 high.2
  rw [add_of_isFinite finite others, add_of_isFinite finite' others',
    atMost_congr place?_ofUnits place?_ofUnits]
  exact nearest_atMost Nat.one_pos (Int.add_le_add units otherUnits)

/-- Differences keep the order of numbers that the same number is taken from. -/
theorem sub_atMost (ordered : (Number.float x).atMost (.float x') = true)
    (same : (Number.float y).atMost (.float y) = true)
    (defined : (x.sub y).isNaN = false) (defined' : (x'.sub y).isNaN = false) :
    (Number.float (x.sub y)).atMost (.float (x'.sub y)) = true := by
  -- A difference is the sum with the negated number, which is at most itself.
  refine add_atMost ordered (Number.atMost_of_equals (Number.equals_self ?_)) defined defined'
  obtain ⟨notNaN, -⟩ := Number.not_isNaN_of_atMost same
  cases y <;> first | rfl | cases notNaN

/-- A number below zero has a sign. -/
theorem isNegative_of_units (below : x.units < 0) : x.isNegative = true := by
  by_contra unsigned
  rw [units, if_neg unsigned] at below
  omega

/-- A finite number with a sign is below zero, unless it is zero. -/
theorem units_of_isNegative (finite : x.isFinite = true) (away : x.isZero = false)
    (signed : x.isNegative = true) : x.units < 0 := by
  have distance : x.magnitude ≠ 0 := by simpa [isZero, finite] using away
  rw [units, if_pos signed]
  omega

/-- What is at most a number below zero is below zero itself. -/
theorem isNegative_of_atMost (ordered : (Number.float x).atMost (.float x') = true)
    (away : x'.isZero = false) (signed : x'.isNegative = true) : x.isNegative = true := by
  -- An end below zero has a sign, and in between the units are below those of the other number.
  by_cases low : x = .infinite true
  · rw [low]
    rfl
  have high : x' ≠ .infinite false := by
    rintro rfl
    cases signed
  obtain ⟨-, finite, units⟩ := units_le_of_atMost ordered low high
  exact isNegative_of_units (Int.lt_of_le_of_lt units (units_of_isNegative finite away signed))

/-- Zero is at most the finite numbers with units that are not below zero. -/
theorem zero_atMost_iff (finite : x.isFinite = true) :
    (Number.float (zero false)).atMost (.float x) = true ↔ 0 ≤ x.units :=
  atMost_iff_units rfl finite

/-- A product is the same from either side. -/
theorem mul_comm (x y : Binary64) : x.mul y = y.mul x := by
  simp only [mul, Bool.xor_comm x.isNegative, Bool.or_comm x.isNaN, Bool.or_comm x.isInfinite,
    Bool.or_comm x.isZero, Nat.mul_comm x.magnitude]

/-- The place of a product of finite numbers is that of the rounded product of their units. -/
theorem place?_mul (finite : x.isFinite = true) (finite' : y.isFinite = true) :
    (x.mul y).place? = (nearest (x.units * y.units) unitsPerOne).place? := by
  rw [mul_of_isFinite finite finite']
  refine place?_round unitsPerOne_pos ?_
  -- The sign of a product is that of one side where the other has none.
  rw [units, units]
  cases x.isNegative <;> cases y.isNegative <;> simp

/-- A product with an infinite number has the sign of both sides, unless it is undefined. -/
theorem mul_infinite (unbounded : x.isInfinite = true ∨ y.isInfinite = true)
    (defined : (x.mul y).isNaN = false) :
    x.mul y = .infinite (xor x.isNegative y.isNegative) ∧ x.isZero = false ∧ y.isZero = false := by
  -- Only zero times the infinite is undefined, so neither side is zero.
  have some : (x.isInfinite || y.isInfinite) = true := by simpa using unbounded
  rw [mul] at defined ⊢
  split at defined
  · cases defined
  · next notNaN =>
    rw [if_neg notNaN, if_pos some]
    split at defined
    · cases defined
    · next away =>
      rw [if_neg away]
      simpa using away

/-- A number that is not below zero has no sign, unless it is zero. -/
theorem isNegative_of_nonneg (nonneg : (Number.float (zero false)).atMost (.float x) = true)
    (away : x.isZero = false) : x.isNegative = false := by
  by_contra signed
  exact Bool.false_ne_true (isNegative_of_atMost nonneg away (by simpa using signed))

/-- Products keep the order of both sides, where one stays the same or neither is below zero. -/
theorem mul_atMost (ordered : (Number.float x).atMost (.float x') = true)
    (ordered' : (Number.float y).atMost (.float y') = true)
    (nonneg : (Number.float (zero false)).atMost (.float y) = true)
    (either : y = y' ∨ (Number.float (zero false)).atMost (.float x) = true)
    (defined : (x.mul y).isNaN = false) (defined' : (x'.mul y').isNaN = false) :
    (Number.float (x.mul y)).atMost (.float (x'.mul y')) = true := by
  have nonneg' := Number.atMost_trans nonneg ordered'
  -- An upper end that is infinite leaves the product infinite on its side.
  by_cases high : x' = .infinite false ∨ y' = .infinite false
  · have unbounded : x'.isInfinite = true ∨ y'.isInfinite = true := by
      rcases high with rfl | rfl
      · exact .inl rfl
      · exact .inr rfl
    obtain ⟨product, away, away'⟩ := mul_infinite unbounded defined'
    rw [isNegative_of_nonneg nonneg' away', Bool.xor_false] at product
    cases signed : x'.isNegative with
    | false =>
      rw [product, signed]
      exact Number.atMost_of_highest defined rfl
    | true =>
      -- Below zero the other side stays the same, and is infinite on both of them.
      have below := isNegative_of_atMost ordered away signed
      have same : y = y' := by
        refine either.resolve_right fun above => ?_
        have unsigned := isNegative_of_nonneg (Number.atMost_trans above ordered) away
        exact Bool.false_ne_true (unsigned.symm.trans signed)
      have infinite : y' = .infinite false := by
        refine high.resolve_left ?_
        rintro rfl
        cases signed
      subst same infinite
      obtain ⟨product', -, -⟩ := mul_infinite (.inr rfl) defined
      rw [product', below]
      exact Number.atMost_of_lowest rfl defined'
  by_cases low : x = .infinite true
  · have unbounded : x.isInfinite = true ∨ y.isInfinite = true := .inl (low ▸ rfl)
    obtain ⟨product, -, away⟩ := mul_infinite unbounded defined
    rw [product, isNegative_of_nonneg nonneg away, low]
    exact Number.atMost_of_lowest rfl defined'
  -- What is left is finite on both sides.
  rw [not_or] at high
  have notLowest : y ≠ .infinite true := by
    rintro rfl
    cases nonneg
  obtain ⟨finite, finite', units⟩ := units_le_of_atMost ordered low high.1
  obtain ⟨others, others', otherUnits⟩ := units_le_of_atMost ordered' notLowest high.2
  rw [atMost_congr (place?_mul finite others) (place?_mul finite' others')]
  refine nearest_atMost unitsPerOne_pos ?_
  have above := (zero_atMost_iff others).mp nonneg
  rcases either with rfl | aboveLeft
  · exact Int.mul_le_mul_of_nonneg_right units above
  · exact Int.mul_le_mul units otherUnits above
      (Int.le_trans ((zero_atMost_iff finite).mp aboveLeft) units)

/-- A number above zero has a distance from it and no sign. -/
theorem above_zero (positive : 0 < y.units) :
    y.isNegative = false ∧ 0 < y.magnitude ∧ y.isZero = false := by
  -- With a sign the units would be below zero.
  have unsigned : y.isNegative = false := by
    by_contra signed
    rw [units, if_pos (by simpa using signed)] at positive
    omega
  rw [units_eq_magnitude unsigned] at positive
  have some : y.magnitude ≠ 0 := by omega
  exact ⟨unsigned, by omega, by simp [isZero, some]⟩

section Divisor

variable (finite : y.isFinite = true) (positive : 0 < y.units)

include finite positive

/-- An infinite number over a positive one stays as it is. -/
theorem infinite_div (negative : Bool) : (infinite negative).div y = .infinite negative := by
  -- The split of the definition is decided by the kinds of both sides.
  obtain ⟨unsigned, -, away⟩ := above_zero positive
  obtain ⟨defined, bounded⟩ := isFinite_iff.mp finite
  have ends : (infinite negative).isNaN = false ∧ (infinite negative).isInfinite = true ∧
      (infinite negative).isZero = false ∧ (infinite negative).isNegative = negative :=
    ⟨rfl, rfl, rfl, rfl⟩
  simp only [div, ends, unsigned, defined, bounded, away, Bool.or_self, Bool.and_false,
    Bool.false_eq_true, if_false, Bool.or_false, if_true, Bool.xor_false]

/-- The place of a number over a positive one is that of the rounded quotient of their units. -/
theorem place?_div (finite' : x.isFinite = true) :
    (x.div y).place? = (nearest (x.units * unitsPerOne) y.magnitude).place? := by
  -- Both sides are rounded quotients, and the sign is that of the dividend alone.
  obtain ⟨unsigned, some, away⟩ := above_zero positive
  obtain ⟨defined, bounded⟩ := isFinite_iff.mp finite
  obtain ⟨defined', bounded'⟩ := isFinite_iff.mp finite'
  have quotient : x.div y = round x.isNegative (x.magnitude * unitsPerOne) y.magnitude := by
    simp [div, unsigned, defined, bounded, defined', bounded', away]
  rw [quotient]
  refine place?_round some ?_
  rw [units]
  cases x.isNegative with
  | false => rw [if_neg Bool.false_ne_true, if_neg Bool.false_ne_true, Int.natCast_mul]
  | true => rw [if_pos rfl, if_pos rfl, Int.natCast_mul, Int.neg_mul]

end Divisor

/-- A finite number over the greatest one is zero, and an infinite one is undefined. -/
theorem place?_div_infinite (defined : (x.div (.infinite false)).isNaN = false) :
    (x.div (.infinite false)).place? = some (.point 0) := by
  -- Only a finite dividend gives a defined number, which is zero of some sign.
  have ends : (infinite false).isNaN = false ∧ (infinite false).isInfinite = true ∧
      (infinite false).isZero = false := ⟨rfl, rfl, rfl⟩
  cases x with
  | nan | infinite => cases defined
  | finite negative significand exponent canonical =>
    have own : (finite negative significand exponent canonical).isNaN = false ∧
        (finite negative significand exponent canonical).isInfinite = false := ⟨rfl, rfl⟩
    simp only [div, ends, own, Bool.or_self, Bool.false_and, Bool.and_false, Bool.false_eq_true,
      if_false, if_true]
    generalize xor _ _ = sign
    cases sign <;> rfl

/-- Quotients keep the order of numbers that are divided by the same positive number. -/
theorem div_atMost (ordered : (Number.float x).atMost (.float x') = true)
    (positive : (Number.float (zero false)).less (.float y) = true)
    (defined : (x.div y).isNaN = false) (defined' : (x'.div y).isNaN = false) :
    (Number.float (x.div y)).atMost (.float (x'.div y)) = true := by
  cases finite : y.isFinite with
  | false =>
    -- Over the greatest number everything is zero.
    have infinite : y = .infinite false := by
      cases y with
      | nan => cases positive
      | infinite negative =>
        cases negative with
        | true => cases positive
        | false => rfl
      | finite => cases finite
    subst infinite
    exact Number.atMost_iff.mpr ⟨_, _, place?_div_infinite defined, place?_div_infinite defined',
      .inr rfl⟩
  | true =>
    have above : 0 < y.units := by
      obtain ⟨first, second, left, right, before⟩ := Number.less_iff.mp positive
      cases left
      cases (place?_of_isFinite finite).symm.trans right
      exact of_decide_eq_true before
    -- An infinite dividend keeps its sign, and everything else lies between the two.
    by_cases low : x = .infinite true
    · rw [low, infinite_div finite above]
      exact Number.atMost_of_lowest rfl defined'
    by_cases high : x' = .infinite false
    · rw [high, infinite_div finite above]
      exact Number.atMost_of_highest defined rfl
    obtain ⟨finite', finite'', units⟩ := units_le_of_atMost ordered low high
    rw [atMost_congr (place?_div finite above finite') (place?_div finite above finite'')]
    obtain ⟨-, some, -⟩ := above_zero above
    exact nearest_atMost some (Int.mul_le_mul_of_nonneg_right units (Int.natCast_nonneg _))

end Operations
end Binary64
end TrialScript
