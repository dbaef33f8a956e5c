import Mathlib.Tactic.Ring
import TrialScript.Proofs.Numeric.Rounding

/-! Where binary64 ends: the quotients that round to infinity, and the operations that are defined. -/

namespace TrialScript

namespace Binary64

/-- The smallest whole number that rounds to infinity, halfway past the largest finite number. -/
def limit : Nat := 2 ^ 1024 - 2 ^ 970

/-- The limit is at least this power of two. -/
theorem below_limit : 2 ^ 1023 ≤ limit := by decide +kernel

/-- Powers of two with no more than 1023 bits behind the first one are below the limit. -/
theorem pow_le_limit {bits : Nat} (few : bits ≤ 1023) : 2 ^ bits ≤ limit :=
  Nat.le_trans (Nat.pow_le_pow_right Nat.two_pos few) below_limit

/-- The limit is positive. -/
theorem limit_pos : 0 < limit :=
  Nat.lt_of_lt_of_le (Nat.two_pow_pos 1023) below_limit

/-- The limit in units is halfway into the last place of the largest finite number. -/
theorem limit_units : limit * unitsPerOne = (2 ^ 54 - 1) * 2 ^ 2044 := by decide +kernel

/-- Half of the largest last place is positive, and the places behind it double it. -/
theorem half_places {half : Nat} (isHalf : half = 2 ^ 2044) :
    0 < half ∧ 2 ^ 2045 = 2 * half ∧ 2 ^ 2046 = 4 * half := by
  -- Under a name of its own the exponent is not computed with.
  obtain ⟨place, isPlace⟩ : ∃ place, place = 2044 := ⟨_, rfl⟩
  have next : 2045 = place + 1 := by omega
  have last : 2046 = place + 1 + 1 := by omega
  rw [← isPlace] at isHalf
  rw [last, next, Nat.pow_succ', Nat.pow_succ', ← isHalf]
  refine ⟨?_, rfl, by omega⟩
  rw [isHalf]
  exact Nat.two_pow_pos place

/-- A quotient passes an odd whole number from halfway on, as a tie goes to the next one. -/
theorem odd_lt_nearestEven {whole numerator denominator : Nat} (odd : whole % 2 = 1)
    (divides : 0 < denominator) :
    whole < nearestEven numerator denominator ↔ (2 * whole + 1) * denominator ≤ 2 * numerator := by
  have parts := Nat.div_add_mod numerator denominator
  have rest := Nat.mod_lt numerator divides
  have halfway : (2 * whole + 1) * denominator = 2 * (denominator * whole) + denominator := by ring
  rw [halfway]
  -- Only where the integer part is the number itself does the rest decide.
  rcases Nat.lt_trichotomy (numerator / denominator) whole with before | same | behind
  · have below : denominator * (numerator / denominator + 1) ≤ denominator * whole :=
      Nat.mul_le_mul_left _ before
    have most : nearestEven numerator denominator ≤ numerator / denominator + 1 := by
      refine nearestEven_le divides ?_
      rw [Nat.mul_comm, Nat.mul_add_one]
      omega
    -- The rounded quotient is at most the number, and the quotient is short of halfway.
    rw [Nat.mul_add_one] at below
    omega
  · unfold nearestEven
    rw [← same] at odd ⊢
    dsimp only
    split
    · omega
    · split <;> omega
  · have above : denominator * (whole + 1) ≤ denominator * (numerator / denominator) :=
      Nat.mul_le_mul_left _ behind
    -- The rounded quotient is past the number, and so is what is divided.
    have least : numerator / denominator ≤ nearestEven numerator denominator :=
      le_nearestEven divides (Nat.div_mul_le_self numerator denominator)
    rw [Nat.mul_add_one] at above
    omega

section Ends

variable {numerator denominator : Nat}

/-- No quotient goes beyond its leading bit by as much again. -/
theorem quotient_lt (divides : 0 < denominator) :
    numerator < 2 ^ 53 * (denominator * 2 ^ exponentOf numerator denominator) := by
  -- The exponent counts the bits that the quotient has beyond 53.
  have below : numerator / denominator < 2 ^ (53 + exponentOf numerator denominator) := by
    refine Nat.lt_of_lt_of_le Nat.lt_log2_self (Nat.pow_le_pow_right (by decide) ?_)
    simp only [exponentOf]
    omega
  rw [Nat.div_lt_iff_lt_mul divides, Nat.pow_add] at below
  calc numerator < 2 ^ 53 * 2 ^ exponentOf numerator denominator * denominator := below
    _ = 2 ^ 53 * (denominator * 2 ^ exponentOf numerator denominator) := by ring

/-- A quotient rounds to infinity where its exponent is too large, or becomes so by a carry. -/
theorem isInfinite_round_iff_exponent {negative : Bool} (divides : 0 < denominator) :
    (round negative numerator denominator).isInfinite = true ↔
      2045 < exponentOf numerator denominator ∨ exponentOf numerator denominator = 2045 ∧
        2 ^ 53 - 1 < nearestEven numerator (denominator * 2 ^ exponentOf numerator denominator) := by
  have last : 0 < denominator * 2 ^ exponentOf numerator denominator :=
    Nat.mul_pos divides (Nat.two_pow_pos _)
  have filled : 0 < exponentOf numerator denominator → 2 ^ 52 ≤
      nearestEven numerator (denominator * 2 ^ exponentOf numerator denominator) :=
    fun positive => le_nearestEven last (leading_le positive divides)
  have most : nearestEven numerator (denominator * 2 ^ exponentOf numerator denominator) ≤ 2 ^ 53 :=
    nearestEven_le last (Nat.le_of_lt (quotient_lt divides))
  simp only [round]
  generalize exponentOf numerator denominator = exponent at *
  generalize nearestEven numerator (denominator * 2 ^ exponent) = significand at *
  -- What is left are the conditions on a canonical significand and exponent.
  by_cases carried : significand = 2 ^ 53
  · simp only [if_pos carried]
    split
    · next canonical =>
      have := canonical.2.1
      simp only [isInfinite, Bool.false_eq_true, false_iff]
      omega
    -- A significand and an exponent that do not fit are what overflow means.
    · next outside =>
      simp only [Canonical, not_and, not_or] at outside
      simp only [isInfinite, true_iff]
      omega
  · simp only [if_neg carried]
    split
    · next canonical =>
      have := canonical.2.1
      simp only [isInfinite, Bool.false_eq_true, false_iff]
      omega
    · next outside =>
      simp only [Canonical, not_and, not_or] at outside
      simp only [isInfinite, true_iff]
      omega

/-- A quotient rounds to infinity exactly from the limit on. -/
theorem isInfinite_round {negative : Bool} (divides : 0 < denominator) :
    (round negative numerator denominator).isInfinite = true ↔
      limit * unitsPerOne * denominator ≤ numerator := by
  have below : numerator < 2 ^ 53 * (denominator * 2 ^ exponentOf numerator denominator) :=
    quotient_lt divides
  rw [isInfinite_round_iff_exponent divides, limit_units]
  -- Half of the largest last place is too large a number to be computed with.
  obtain ⟨half, isHalf⟩ : ∃ half, half = 2 ^ 2044 := ⟨_, rfl⟩
  obtain ⟨-, last, behind⟩ := half_places isHalf
  have product : (2 ^ 54 - 1) * half * denominator = (2 ^ 54 - 1) * (denominator * half) := by ring
  have powers : ∀ low high : Nat, low ≤ high → 2 ^ low ≤ 2 ^ high :=
    fun _ _ => Nat.pow_le_pow_right Nat.two_pos
  rw [← isHalf, product]
  -- Away from the largest exponent the quotient is on one side of the limit as a whole.
  rcases Nat.lt_trichotomy (exponentOf numerator denominator) 2045 with smaller | largest | larger
  · have finer : 2 ^ exponentOf numerator denominator ≤ half := by
      rw [isHalf]
      exact powers _ 2044 (by omega)
    have scaled := Nat.mul_le_mul_left denominator finer
    omega
  · have positive : 0 < denominator * (2 * half) := by
      rw [← last]
      exact Nat.mul_pos divides (Nat.two_pow_pos 2045)
    have doubled : denominator * (2 * half) = 2 * (denominator * half) := by ring
    rw [largest, last, odd_lt_nearestEven (by decide) positive, doubled]
    omega
  · have coarser : 4 * half ≤ 2 ^ exponentOf numerator denominator := by
      rw [← behind]
      exact powers 2046 _ larger
    have scaled := Nat.mul_le_mul_left denominator coarser
    have quadrupled : denominator * (4 * half) = 4 * (denominator * half) := by ring
    have leading := leading_le (Nat.zero_lt_of_lt larger) divides
    omega

end Ends

/-- A quotient is never rounded to the undefined number. -/
theorem isNaN_round {negative : Bool} {numerator denominator : Nat} :
    (round negative numerator denominator).isNaN = false := by
  -- The result is a finite number or an infinite one, with a carry or without.
  unfold round
  dsimp only
  split <;> split <;> rfl

/-- A count of units is never the undefined number. -/
theorem isNaN_ofUnits {negativeZero : Bool} {total : Int} :
    (ofUnits negativeZero total).isNaN = false := by
  unfold ofUnits
  split
  · rfl
  · exact isNaN_round

/-- A number is finite if it is defined and not infinite. -/
theorem isFinite_iff {x : Binary64} : x.isFinite = true ↔ x.isNaN = false ∧ x.isInfinite = false := by
  cases x <;> simp [isFinite, isNaN, isInfinite]

section Operands

variable {x y : Binary64}

/-- A negation is finite exactly if the number is. -/
@[simp] theorem isFinite_neg (x : Binary64) : x.neg.isFinite = x.isFinite := by
  cases x <;> rfl

variable (finite : x.isFinite = true) (finite' : y.isFinite = true)

include finite finite'

/-- The units of two finite numbers are added and then rounded. -/
theorem add_of_isFinite :
    x.add y = ofUnits (x.isNegative && y.isNegative) (x.units + y.units) := by
  -- Finite numbers are added by their units as the definition says.
  cases x with
  | nan | infinite => cases finite
  | finite =>
    cases y with
    | nan | infinite => cases finite'
    | finite => rfl

/-- The product of finite numbers is the product of their units, counted in ones and rounded. -/
theorem mul_of_isFinite :
    x.mul y = round (xor x.isNegative y.isNegative) (x.magnitude * y.magnitude) unitsPerOne := by
  obtain ⟨defined, bounded⟩ := isFinite_iff.mp finite
  obtain ⟨defined', bounded'⟩ := isFinite_iff.mp finite'
  simp only [mul, defined, defined', bounded, bounded', Bool.or_self, Bool.false_eq_true, if_false]

/-- The remainder of two finite numbers is exact before it is rounded, unless it is taken over zero. -/
theorem rem_of_isFinite (some : y.isZero = false) :
    x.rem y = round x.isNegative (x.magnitude % y.magnitude) 1 := by
  obtain ⟨defined, bounded⟩ := isFinite_iff.mp finite
  obtain ⟨defined', bounded'⟩ := isFinite_iff.mp finite'
  simp only [rem, defined, defined', bounded, bounded', some, Bool.or_self, Bool.false_eq_true,
    if_false]

end Operands

/-- A quotient below the limit rounds to a finite number. -/
theorem isFinite_round {negative : Bool} {numerator denominator : Nat} (divides : 0 < denominator)
    (below : numerator < limit * unitsPerOne * denominator) :
    (round negative numerator denominator).isFinite = true := by
  rw [isFinite_iff, ← Bool.not_eq_true (isInfinite _), isInfinite_round divides]
  exact ⟨isNaN_round, Nat.not_le.mpr below⟩

/-- A count of units below the limit rounds to a finite number. -/
theorem isFinite_ofUnits {negativeZero : Bool} {total : Int}
    (below : total.natAbs < limit * unitsPerOne) : (ofUnits negativeZero total).isFinite = true := by
  -- Zero needs no rounding, and any other count is a quotient by one.
  by_cases zero : total = 0
  · subst zero
    rfl
  · rw [ofUnits_of_ne_zero zero]
    exact isFinite_round Nat.one_pos (by rwa [Nat.mul_one])

/-- Every number that is not infinite stays below the limit by more than fifty-three bits. -/
theorem magnitude_add_lt (x : Binary64) {count : Nat} (small : count < 2 ^ 53) :
    x.magnitude + count * unitsPerOne < limit * unitsPerOne := by
  obtain ⟨significand, exponent, canonical, distance⟩ := x.exists_canonical
  -- Half of the largest last place is too large a number to be computed with.
  obtain ⟨half, isHalf⟩ : ∃ half, half = 2 ^ 2044 := ⟨_, rfl⟩
  obtain ⟨some, last, -⟩ := half_places isHalf
  have powers : ∀ low high : Nat, low ≤ high → 2 ^ low ≤ 2 ^ high :=
    fun _ _ => Nat.pow_le_pow_right Nat.two_pos
  have finer : 2 ^ exponent ≤ 2 * half := by
    rw [← last]
    exact powers exponent 2045 canonical.2.1
  have room : 2 ^ 53 * unitsPerOne ≤ half := by
    rw [isHalf]
    decide +kernel
  have more : count * unitsPerOne < 2 ^ 53 * unitsPerOne :=
    Nat.mul_lt_mul_of_pos_right small unitsPerOne_pos
  have filled := canonical.1
  have most : significand * 2 ^ exponent ≤ (2 ^ 53 - 1) * (2 * half) :=
    Nat.mul_le_mul (by omega) finer
  rw [distance, limit_units, ← isHalf]
  omega

/-- Every number that is not infinite stays below the limit. -/
theorem magnitude_lt (x : Binary64) : x.magnitude < limit * unitsPerOne := by
  have stays := x.magnitude_add_lt (Nat.two_pow_pos 53)
  rwa [Nat.zero_mul] at stays

/-- The count of units of a number is rounded to that number, up to the sign of zero. -/
theorem ofUnits_units (x : Binary64) (negativeZero : Bool) :
    (ofUnits negativeZero x.units).isFinite = true ∧
      (ofUnits negativeZero x.units).units = x.units := by
  -- The units of a number stay below the limit, and rounding can move them to neither side.
  have below : x.units.natAbs < limit * unitsPerOne := by
    have distance := x.magnitude_lt
    unfold units
    split <;> omega
  have finite := @isFinite_ofUnits negativeZero _ below
  exact ⟨finite, Int.le_antisymm (units_ofUnits_le (Int.le_refl _) finite)
    (le_units_ofUnits (Int.le_refl _) finite)⟩

end Binary64
end TrialScript
