import TrialScript.Proofs.Numeric.Integral

/-! Multiples of one half: sums and remainders of them are exact as long as they have fifty-three bits. -/

namespace TrialScript

namespace Binary64

/-- A number is exactly a count of halves, of either sign where it is zero. -/
def Halves (x : Binary64) (count : Int) : Prop :=
  x.isFinite = true ∧ 2 * x.units = count * unitsPerOne

variable {x y : Binary64} {count other total : Int} {negative negativeZero : Bool}

/-- One half is a whole number of units, which is a power of two. -/
theorem exists_half : ∃ half place : Nat, unitsPerOne = 2 * half ∧ half = 2 ^ place := by
  obtain ⟨place, more, units⟩ := unitsPerOne_eq
  obtain ⟨before, rfl⟩ : ∃ before, place = before + 1 := ⟨place - 1, by omega⟩
  exact ⟨2 ^ before, before, by rw [units, Nat.pow_succ'], rfl⟩

/-- A count of halves with at most fifty-three bits is rounded to itself. -/
theorem halves_ofUnits (small : count.natAbs < 2 ^ 53) (halves : 2 * total = count * unitsPerOne) :
    (ofUnits negativeZero total).Halves count := by
  -- Half of one is a power of two, so that the bits of the count are the bits of the number.
  obtain ⟨half, place, two, bits⟩ := exists_half
  have exactly : total = count * half := by
    rw [two, Int.natCast_mul, Int.mul_left_comm] at halves
    exact Int.eq_of_mul_eq_mul_left (by decide) halves
  have distance : total.natAbs = count.natAbs * half := by
    rw [exactly, Int.natAbs_mul, Int.natAbs_natCast]
  have below := (zero false).magnitude_add_lt small
  have finite : (ofUnits negativeZero total).isFinite = true := by
    refine isFinite_ofUnits ?_
    rw [distance]
    have nearer : count.natAbs * half ≤ count.natAbs * unitsPerOne :=
      Nat.mul_le_mul_left _ (by omega)
    omega
  rw [Halves, units_ofUnits_bits small (by rw [distance, bits]) finite]
  exact ⟨finite, halves⟩

/-- A whole number is twice as many halves. -/
theorem halves_of_isIntegral (integral : x.isIntegral = true) : ∃ count, x.Halves count := by
  obtain ⟨whole, units⟩ := units_of_isIntegral integral
  exact ⟨2 * whole, (isIntegral_iff.mp integral).1, by rw [units, Int.mul_assoc]⟩

/-- An integer of at most fifty-three bits converts to twice as many halves. -/
theorem halves_ofInt {whole : Nat} (small : whole < 2 ^ 53) : (ofInt whole).Halves (2 * whole) := by
  obtain ⟨finite, units⟩ := counts_ofInt small
  exact ⟨finite, by rw [units, Int.mul_assoc]⟩

/-- One is two halves. -/
theorem halves_one : (ofInt 1).Halves 2 :=
  @halves_ofInt 1 (by decide)

namespace Halves

/-- Numbers of halves are in the order of their counts. -/
theorem units_le_iff (left : x.Halves count) (right : y.Halves other) :
    x.units ≤ y.units ↔ count ≤ other := by
  have scaled := @Int.mul_le_mul_iff_of_pos_right unitsPerOne count other natCast_unitsPerOne_pos
  rw [← left.2, ← right.2] at scaled
  omega

/-- A number has only one count of halves. -/
theorem unique (halves : x.Halves count) (halves' : x.Halves other) : count = other :=
  Int.le_antisymm ((halves.units_le_iff halves').mp (Int.le_refl _))
    ((halves'.units_le_iff halves).mp (Int.le_refl _))

/-- The negation of a number of halves has the negated count of them. -/
theorem neg (halves : x.Halves count) : x.neg.Halves (-count) := by
  -- Negation changes the sign of the units and nothing else.
  obtain ⟨finite, units⟩ := halves
  refine ⟨by rwa [isFinite_neg], ?_⟩
  rw [units_neg, Int.neg_mul, ← units]
  omega

/-- A sum of halves is exact as long as it has at most fifty-three bits. -/
theorem add (left : x.Halves count) (right : y.Halves other)
    (small : (count + other).natAbs < 2 ^ 53) : (x.add y).Halves (count + other) := by
  rw [add_of_isFinite left.1 right.1]
  refine halves_ofUnits small ?_
  rw [Int.add_mul, ← left.2, ← right.2, Int.mul_add]

/-- A difference of halves is exact as long as it has at most fifty-three bits. -/
theorem sub (left : x.Halves count) (right : y.Halves other)
    (small : (count - other).natAbs < 2 ^ 53) : (x.sub y).Halves (count - other) :=
  left.add right.neg small

end Halves

section Remainder

/-- What is left over is never more than there was. -/
theorem emod_le (nonneg : 0 ≤ count) (positive : 0 < other) : count % other ≤ count := by
  -- Below the divisor all is left over, and otherwise less than the divisor.
  by_cases less : count < other
  · exact Int.le_of_eq (Int.emod_eq_of_lt nonneg less)
  · have := Int.emod_lt_of_pos count positive
    omega

/-- A distance without a sign is a count of units. -/
theorem round_eq_ofUnits (distance : Nat) : round false distance 1 = ofUnits false distance := by
  -- Only nothing at all is rounded without looking at its sign.
  rcases Nat.eq_zero_or_pos distance with none | some
  · subst none
    decide +kernel
  · have total : (distance : Int) ≠ 0 := by omega
    have sign : decide ((distance : Int) < 0) = false := by
      rw [decide_eq_false_iff_not]
      omega
    rw [ofUnits_of_ne_zero total, sign, Int.natAbs_natCast]

/-- Above zero the units of a number are its distance from zero. -/
theorem units_eq_magnitude_of_pos (above : 0 < x.units) : x.units = x.magnitude := by
  -- With a sign the units would not be above zero.
  refine units_eq_magnitude ?_
  cases sign : x.isNegative with
  | false => rfl
  | true =>
    rw [units, sign, if_pos rfl] at above
    omega

/-- A number that is away from zero is not zero. -/
theorem isZero_of_pos (away : 0 < x.magnitude) : x.isZero = false := by
  -- Zero is finite and has no distance.
  rw [isZero, Bool.and_eq_false_imp]
  intro _
  rw [beq_eq_false_iff_ne]
  omega

/-- A remainder of halves is exact, and has no sign if the dividend has none. -/
theorem Halves.rem (left : x.Halves count) (right : y.Halves other)
    (unsigned : x.isNegative = false) (positive : 0 < other) (small : count.natAbs < 2 ^ 53) :
    (x.rem y).isNegative = false ∧ (x.rem y).Halves (count % other) := by
  have one := natCast_unitsPerOne_pos
  -- Both numbers are not below zero, so that their units are their distances from it.
  have dividend : 2 * (x.magnitude : Int) = count * unitsPerOne := by
    rw [← left.2, units_eq_magnitude unsigned]
  have above : 0 < y.units := by
    have := Int.mul_pos positive one
    have := right.2
    omega
  have divisor := units_eq_magnitude_of_pos above
  have nonneg : 0 ≤ count := by
    refine Int.not_lt.mp fun below => ?_
    have := Int.mul_neg_of_neg_of_pos below one
    omega
  rw [rem_of_isFinite left.1 right.1 (isZero_of_pos (by omega)), unsigned, round_eq_ofUnits]
  refine ⟨?_, halves_ofUnits ?_ ?_⟩
  · rw [← round_eq_ofUnits, isNegative_round]
  · have := Int.emod_nonneg count (Int.ne_of_gt positive)
    have := emod_le nonneg positive
    omega
  -- Both distances have the same unit, which the rest of the division keeps.
  · calc 2 * ((x.magnitude % y.magnitude : Nat) : Int)
        = 2 * x.magnitude % (2 * y.magnitude) := by
          rw [Int.natCast_emod, Int.mul_emod_mul_of_pos _ _ (by decide)]
      _ = count * unitsPerOne % (other * unitsPerOne) := by rw [dividend, ← divisor, right.2]
      _ = count % other * unitsPerOne := by
          rw [Int.mul_comm count, Int.mul_comm other, Int.mul_emod_mul_of_pos _ _ one, Int.mul_comm]

/-- A number without a sign is all that is left of it over one that is larger. -/
theorem rem_of_below (finite : x.isFinite = true) (unsigned : x.isNegative = false)
    (defined : y.isNaN = false) (below : y.isFinite = true → x.magnitude < y.magnitude) :
    (x.rem y).isNegative = false ∧ (x.rem y).isFinite = true ∧ (x.rem y).units = x.units := by
  -- A bounded divisor takes away nothing from what is smaller, and an infinite one from nothing.
  cases bounded : y.isFinite with
  | false =>
    have unbounded : y.isInfinite = true := by
      cases y with
      | nan => cases defined
      | infinite => rfl
      | finite => cases bounded
    have notZero : y.isZero = false := by rw [isZero, bounded, Bool.false_and]
    obtain ⟨definedLeft, boundedLeft⟩ := isFinite_iff.mp finite
    have all : x.rem y = x := by
      simp only [Binary64.rem, definedLeft, boundedLeft, defined, notZero, unbounded, Bool.or_self,
        Bool.false_eq_true, if_false, if_true]
    rw [all]
    exact ⟨unsigned, finite, rfl⟩
  | true =>
    have less := below bounded
    rw [rem_of_isFinite finite bounded (isZero_of_pos (by omega)), Nat.mod_eq_of_lt less, unsigned]
    refine ⟨isNegative_round _ _ _, ?_⟩
    rw [round_eq_ofUnits, ← units_eq_magnitude unsigned]
    exact x.ofUnits_units false

end Remainder

section Width

/-- A number is at most as far above zero as it is away from it. -/
theorem units_le_magnitude (x : Binary64) : x.units ≤ x.magnitude := by
  unfold units
  split <;> omega

/-- What is neither finite nor undefined stays as it is when a finite number is added. -/
theorem add_of_not_isFinite (defined : x.isNaN = false) (unbounded : x.isFinite = false)
    (finite : y.isFinite = true) : x.add y = x := by
  -- The two sides are of different kinds, and the finite one is dropped.
  cases x with
  | nan => cases defined
  | finite => cases unbounded
  | infinite =>
    cases y with
    | nan | infinite => cases finite
    | finite => rfl

/-- The nearest number to a count that is not negative has no sign. -/
theorem isNegative_ofInt_natCast (count : Nat) : (ofInt count).isNegative = false := by
  rw [Number.isNegative_ofInt, decide_eq_false_iff_not]
  omega

variable {low high : Int} {count : Nat} (few : count < 2 ^ 52) (lower : x.Halves low)
  (upper : y.Halves high)

include few lower upper

/-- A count is below the width of an interval that is longer, also where the width is rounded. -/
theorem below_width (long : 2 * (count : Int) ≤ high - low) :
    ((y.sub x).add (ofInt 1)).isNaN = false ∧ (((y.sub x).add (ofInt 1)).isFinite = true →
      (ofInt count).magnitude < ((y.sub x).add (ofInt 1)).magnitude) := by
  obtain ⟨sign, span⟩ : ∃ sign, y.sub x = ofUnits sign (y.units - x.units) := by
    rw [sub, add_of_isFinite upper.1 lower.neg.1, units_neg]
    exact ⟨_, rfl⟩
  obtain ⟨finite, units⟩ := counts_ofInt (show count < 2 ^ 53 by omega)
  obtain ⟨finiteNext, unitsNext⟩ := counts_ofInt (show count + 1 < 2 ^ 53 by omega)
  obtain ⟨finiteOne, unitsOne⟩ := halves_one
  have reaches : (ofInt count).units ≤ y.units - x.units := by
    have scaled := Int.mul_le_mul_of_nonneg_right long (Int.natCast_nonneg unitsPerOne)
    rw [Int.sub_mul, ← lower.2, ← upper.2, Int.mul_assoc, ← units] at scaled
    omega
  rw [span]
  cases bounded : (ofUnits sign (y.units - x.units)).isFinite with
  | false =>
    -- Past the largest number the width stays infinite.
    rw [add_of_not_isFinite isNaN_ofUnits bounded finiteOne, bounded]
    exact ⟨isNaN_ofUnits, fun impossible => by cases impossible⟩
  | true =>
    rw [add_of_isFinite bounded finiteOne]
    refine ⟨isNaN_ofUnits, fun finiteWidth => ?_⟩
    -- The width reaches the next count, and rounding does not take it below that.
    have next : (ofInt (count + 1 : Nat)).units ≤
        (ofUnits sign (y.units - x.units)).units + (ofInt 1).units := by
      have rounded := le_units_ofUnits reaches bounded
      rw [unitsNext, Int.natCast_add, Int.add_mul, ← units]
      omega
    have wide := Int.le_trans (le_units_ofUnits next finiteWidth) (units_le_magnitude _)
    have positive := unitsPerOne_pos
    rw [unitsNext, Int.natCast_add, Int.add_mul, ← units,
      units_eq_magnitude (isNegative_ofInt_natCast count)] at wide
    omega

/--
What is left of a count over the width of an interval is that of its halves over those of the width.

An interval that has no exact width is longer than any such count, so that all of it is left.
-/
theorem halves_rem_width (ordered : low ≤ high) :
    ((ofInt count).rem ((y.sub x).add (ofInt 1))).isNegative = false ∧
      ((ofInt count).rem ((y.sub x).add (ofInt 1))).Halves (2 * count % (high - low + 2)) := by
  -- The width of a short interval is exact, and that of any other is longer than the count.
  have counted := halves_ofInt (show count < 2 ^ 53 by omega)
  have unsigned := isNegative_ofInt_natCast count
  by_cases short : high - low + 2 < 2 ^ 53
  · have width := (upper.sub lower (by omega)).add halves_one (by omega)
    exact counted.rem width unsigned (by omega) (by omega)
  · obtain ⟨defined, below⟩ := below_width few lower upper (by omega)
    obtain ⟨sign, finite, same⟩ := rem_of_below counted.1 unsigned defined below
    refine ⟨sign, finite, ?_⟩
    rw [same, counted.2, Int.emod_eq_of_lt (by omega) (by omega)]

end Width

section Quotient

/-- Rounding does not depend on what the units of a quotient are. -/
theorem nearestEven_double (numerator denominator : Nat) :
    nearestEven (2 * numerator) (2 * denominator) = nearestEven numerator denominator := by
  simp only [nearestEven, Nat.mul_div_mul_left _ _ Nat.two_pos, Nat.mul_mod_mul_left,
    Nat.mul_lt_mul_left Nat.two_pos]

/-- Half of twice as many units is rounded like the units themselves. -/
theorem round_double (distance : Nat) : round negative (2 * distance) 2 = round negative distance 1 := by
  have exponent : exponentOf (2 * distance) 2 = exponentOf distance 1 := by
    rw [exponentOf, exponentOf, Nat.mul_div_cancel_left _ Nat.two_pos, Nat.div_one]
  simp only [round, exponent, nearestEven_double, Nat.one_mul]

/-- A count of halves is rounded like its quotient by two. -/
theorem ofUnits_eq_ofQuotient (halves : 2 * total = count * unitsPerOne) :
    ofUnits false total = ofQuotient count 2 := by
  -- Zero has its own rule; otherwise both are rounded from one quotient, once it is doubled.
  have positive := natCast_unitsPerOne_pos
  by_cases none : count = 0
  · subst none
    have zero : total = 0 := by
      rw [Int.zero_mul] at halves
      omega
    subst zero
    decide +kernel
  · have some : total ≠ 0 := by
      have := Int.mul_ne_zero none (Int.ne_of_gt positive)
      omega
    have distance : count.natAbs * unitsPerOne = 2 * total.natAbs := by
      have both := congrArg Int.natAbs halves
      rw [Int.natAbs_mul, Int.natAbs_mul, Int.natAbs_natCast] at both
      exact both.symm
    have sign : decide (total < 0) = decide (count < 0) := by
      have reached := @Int.mul_nonneg_iff_of_pos_right count _ positive
      rw [decide_eq_decide]
      omega
    have two : decide ((2 : Int) < 0) = false := rfl
    rw [ofUnits_of_ne_zero some, ofQuotient, distance, sign, two, Bool.xor_false]
    exact (round_double total.natAbs).symm

end Quotient

section Drawn

/-- A number stays finite with a few units more. -/
theorem isFinite_ofUnits_add {more few : Nat} (small : few < 2 ^ 53)
    (most : more ≤ few * unitsPerOne) :
    (ofUnits negativeZero (x.units + more)).isFinite = true := by
  -- The units that are added are few beside the largest number that is finite.
  have room := x.magnitude_add_lt small
  have distance : x.units.natAbs = x.magnitude := by
    unfold units
    split <;> omega
  refine isFinite_ofUnits ?_
  omega

variable {low high : Int} {count : Nat} (few : count < 2 ^ 52) (lower : x.Halves low)
  (upper : y.Halves high) (ordered : low ≤ high)

include few lower upper ordered

/-- What is left of a count over a width is some units more than the lower end, which stay finite. -/
theorem exists_more : ∃ more : Nat,
    x.add ((ofInt count).rem ((y.sub x).add (ofInt 1))) = ofUnits false (x.units + more) ∧
      2 * (more : Int) = 2 * count % (high - low + 2) * unitsPerOne ∧
      (ofUnits false (x.units + more)).isFinite = true := by
  -- What is left over is not below zero, so it is a count of units on top of the lower end.
  obtain ⟨unsigned, finite, units⟩ := halves_rem_width few lower upper ordered
  have rounded := add_of_isFinite lower.1 finite
  rw [unsigned, Bool.and_false] at rounded
  have left := Int.emod_nonneg (2 * (count : Int)) (show high - low + 2 ≠ 0 by omega)
  have most : 2 * (count : Int) % (high - low + 2) ≤ 2 * count := emod_le (by omega) (by omega)
  have some := Int.mul_nonneg left (Int.natCast_nonneg unitsPerOne)
  have scaled := Int.mul_le_mul_of_nonneg_right most (Int.natCast_nonneg unitsPerOne)
  rw [← units] at some scaled
  rw [Int.mul_assoc, ← Int.natCast_mul] at scaled
  obtain ⟨more, same⟩ := Int.eq_ofNat_of_zero_le
    (show 0 ≤ ((ofInt count).rem ((y.sub x).add (ofInt 1))).units by omega)
  rw [same] at rounded units scaled
  exact ⟨more, rounded, units, isFinite_ofUnits_add (show count < 2 ^ 53 by omega) (by omega)⟩

/--
The lower end of an interval and what is left of a count over its width.

The sum is rounded once. It does not pass the upper end, unless all but the last half of the width
is left.
-/
theorem add_rem_width :
    let rest := 2 * (count : Int) % (high - low + 2)
    let sum := x.add ((ofInt count).rem ((y.sub x).add (ofInt 1)))
    sum = ofQuotient (low + rest) 2 ∧ sum.isFinite = true ∧ x.units ≤ sum.units ∧
      (rest ≤ high - low → sum.units ≤ y.units) ∧
      (high - low < rest → (high + 1).natAbs < 2 ^ 53 → y.units < sum.units) := by
  obtain ⟨more, rounded, units, bounded⟩ := exists_more few lower upper ordered
  rw [rounded]
  have below := Int.emod_lt_of_pos (2 * (count : Int)) (show 0 < high - low + 2 by omega)
  generalize 2 * (count : Int) % (high - low + 2) = rest at units below ⊢
  have halves : 2 * (x.units + more) = (low + rest) * unitsPerOne := by
    rw [Int.mul_add, lower.2, units, Int.add_mul]
  refine ⟨ofUnits_eq_ofQuotient halves, bounded, le_units_ofUnits (by omega) bounded, ?_, ?_⟩
  · intro within
    refine units_ofUnits_le ?_ bounded
    have scaled := Int.mul_le_mul_of_nonneg_right (show low + rest ≤ high by omega)
      (Int.natCast_nonneg unitsPerOne)
    rw [← halves, ← upper.2] at scaled
    omega
  · -- What is left is below the width, so that the sum is one half too far.
    intro beyond small
    have last : low + rest = high + 1 := by omega
    rw [last] at halves
    have exactly := @halves_ofUnits _ _ false small halves
    have order := exactly.units_le_iff upper
    omega

end Drawn

end Binary64

namespace Number

/-- A number that is a multiple of one half: any integer, or a number of halves in binary64. -/
def InHalves : Number → Prop
  | .int _ => True
  | .float x => ∃ count, x.Halves count

/-- A number of halves that is rounded to binary64 is a number of halves. -/
theorem InHalves.toFloat {n : Number} {x : Binary64} (halves : n.InHalves) (converts : n.toFloat = .ok x) :
    ∃ count, x.Halves count := by
  -- An integer that converts is whole, and so a number of halves.
  cases n with
  | float value =>
    cases converts
    exact halves
  | int value =>
    have whole : (Number.int value).Integral := trivial
    exact Binary64.halves_of_isIntegral (whole.toFloat converts)

end Number
end TrialScript
