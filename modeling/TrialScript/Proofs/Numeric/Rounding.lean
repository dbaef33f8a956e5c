import TrialScript.Proofs.Stateful
import TrialScript.Proofs.Value.Order
import TrialScript.Numeric.Arithmetic

/-! Rounding to binary64 keeps the order of counts of units and numbers that need no rounding. -/

namespace TrialScript

namespace Binary64

/-- A quotient that reaches a whole number rounds to no less. -/
theorem le_nearestEven {whole numerator denominator : Nat} (positive : 0 < denominator)
    (below : whole * denominator ≤ numerator) : whole ≤ nearestEven numerator denominator := by
  -- Rounding gives the integer part or one more.
  have floor : whole ≤ numerator / denominator := (Nat.le_div_iff_mul_le positive).mpr below
  unfold nearestEven
  dsimp only
  split
  · exact floor
  · split <;> omega

/-- A quotient that does not pass a whole number rounds to no more. -/
theorem nearestEven_le {whole numerator denominator : Nat} (positive : 0 < denominator)
    (above : numerator ≤ whole * denominator) : nearestEven numerator denominator ≤ whole := by
  rcases Nat.eq_zero_or_pos (numerator % denominator) with exactly | rest
  · -- Nothing is rounded where the division is exact.
    have rounded : nearestEven numerator denominator = numerator / denominator := by
      simp [nearestEven, exactly, positive]
    rw [rounded]
    exact (Nat.div_le_iff_le_mul_add_pred positive).mpr (by rw [Nat.mul_comm]; omega)
  · -- With a rest the integer part is smaller than the whole number, so one more does not pass it.
    have smaller : numerator / denominator < whole := by
      rw [Nat.div_lt_iff_lt_mul positive]
      refine Nat.lt_of_le_of_ne above ?_
      rintro rfl
      simp at rest
    unfold nearestEven
    dsimp only
    split
    · omega
    · split <;> omega

/-- A whole multiple of the denominator needs no rounding. -/
theorem nearestEven_mul {whole denominator : Nat} (positive : 0 < denominator) :
    nearestEven (whole * denominator) denominator = whole :=
  Nat.le_antisymm (nearestEven_le positive (Nat.le_refl _)) (le_nearestEven positive (Nat.le_refl _))

/-- At a positive exponent a quotient fills the leading bit of the significand. -/
theorem leading_le {numerator denominator : Nat} (positive : 0 < exponentOf numerator denominator)
    (divides : 0 < denominator) :
    2 ^ 52 * (denominator * 2 ^ exponentOf numerator denominator) ≤ numerator := by
  -- The exponent is what the leading bit of the integer part has beyond fifty-two.
  have filled : Nat.log2 (numerator / denominator) =
      52 + exponentOf numerator denominator := by
    simp only [exponentOf] at positive ⊢
    omega
  have reached : 2 ^ (52 + exponentOf numerator denominator) ≤ numerator / denominator := by
    rw [← filled]
    exact Nat.log2_self_le fun none => by simp [none, exponentOf] at positive
  rw [Nat.le_div_iff_mul_le divides, Nat.pow_add] at reached
  calc 2 ^ 52 * (denominator * 2 ^ exponentOf numerator denominator)
      = 2 ^ 52 * 2 ^ exponentOf numerator denominator * denominator := by
        rw [Nat.mul_comm denominator, Nat.mul_assoc]
    _ ≤ numerator := reached

/-- The distance from zero of a rounded quotient is the nearest multiple of its last place. -/
theorem magnitude_round {negative : Bool} {numerator denominator : Nat}
    (finite : (round negative numerator denominator).isFinite = true) :
    (round negative numerator denominator).magnitude =
      nearestEven numerator (denominator * 2 ^ exponentOf numerator denominator) *
        2 ^ exponentOf numerator denominator := by
  -- Moving a bit from the significand to the exponent keeps the product.
  simp only [round] at finite ⊢
  by_cases carried :
      nearestEven numerator (denominator * 2 ^ exponentOf numerator denominator) = 2 ^ 53
  · simp only [if_pos carried] at finite ⊢
    split at finite
    · next canonical =>
      rw [dif_pos canonical]
      simp only [magnitude, Nat.pow_succ 2 (exponentOf _ _), carried]
      omega
    · cases finite
  · simp only [if_neg carried] at finite ⊢
    split at finite
    · next canonical =>
      rw [dif_pos canonical]
      rfl
    · cases finite

/-- The distance of every number from zero is that of a canonical significand and exponent. -/
theorem exists_canonical (x : Binary64) : ∃ significand exponent,
    Canonical significand exponent ∧ x.magnitude = significand * 2 ^ exponent := by
  -- What is not finite is read as zero.
  cases x with
  | nan | infinite => exact ⟨0, 0, by decide, rfl⟩
  | finite negative significand exponent canonical => exact ⟨significand, exponent, canonical, rfl⟩

section Order

variable {x : Binary64} {numerator denominator count : Nat} {negative : Bool}

/-- Against a quotient, a distance is a multiple of its last place or below its leading bit. -/
theorem multiple_or_below (x : Binary64) (divides : 0 < denominator) :
    (∃ whole, x.magnitude = whole * 2 ^ exponentOf numerator denominator) ∨
      (x.magnitude < 2 ^ 52 * 2 ^ exponentOf numerator denominator ∧
        2 ^ 52 * (denominator * 2 ^ exponentOf numerator denominator) ≤ numerator) := by
  obtain ⟨significand, exponent, canonical, distance⟩ := exists_canonical x
  rw [distance]
  rcases Nat.lt_or_ge exponent (exponentOf numerator denominator) with finer | coarser
  · -- With fewer units in its last place the number is smaller than the leading bit of the quotient.
    refine .inr ⟨?_, leading_le (by omega) divides⟩
    calc significand * 2 ^ exponent
        < 2 ^ 53 * 2 ^ exponent := Nat.mul_lt_mul_of_pos_right canonical.1 (Nat.two_pow_pos _)
      _ = 2 ^ 52 * 2 ^ (exponent + 1) := by rw [Nat.pow_succ]; omega
      _ ≤ 2 ^ 52 * 2 ^ exponentOf numerator denominator :=
        Nat.mul_le_mul_left _ (Nat.pow_le_pow_right (by decide) finer)
  · refine .inl ⟨significand * 2 ^ (exponent - exponentOf numerator denominator), ?_⟩
    rw [Nat.mul_assoc, ← Nat.pow_add, Nat.sub_add_cancel coarser]

/-- A quotient that reaches the distance of a number rounds to no less. -/
theorem le_magnitude_round (divides : 0 < denominator)
    (below : x.magnitude * denominator ≤ numerator)
    (finite : (round negative numerator denominator).isFinite = true) :
    x.magnitude ≤ (round negative numerator denominator).magnitude := by
  have place : 0 < denominator * 2 ^ exponentOf numerator denominator :=
    Nat.mul_pos divides (Nat.two_pow_pos _)
  -- A multiple of the last place is kept, and the leading bit of the quotient is one.
  have reaches : ∀ whole,
      whole * (denominator * 2 ^ exponentOf numerator denominator) ≤ numerator →
      whole * 2 ^ exponentOf numerator denominator ≤
        (round negative numerator denominator).magnitude := by
    intro whole reached
    rw [magnitude_round finite]
    exact Nat.mul_le_mul_right _ (le_nearestEven place reached)
  rcases x.multiple_or_below divides with ⟨whole, multiple⟩ | ⟨smaller, leading⟩
  · rw [multiple, Nat.mul_assoc, Nat.mul_comm _ denominator] at below
    rw [multiple]
    exact reaches whole below
  · exact Nat.le_trans (Nat.le_of_lt smaller) (reaches _ leading)

/-- A quotient that does not pass the distance of a number rounds to no more. -/
theorem magnitude_round_le (divides : 0 < denominator)
    (above : numerator ≤ x.magnitude * denominator)
    (finite : (round negative numerator denominator).isFinite = true) :
    (round negative numerator denominator).magnitude ≤ x.magnitude := by
  have place : 0 < denominator * 2 ^ exponentOf numerator denominator :=
    Nat.mul_pos divides (Nat.two_pow_pos _)
  -- The number is no smaller than the leading bit of the quotient, so it is a multiple.
  rcases x.multiple_or_below divides with ⟨whole, multiple⟩ | ⟨smaller, leading⟩
  · rw [magnitude_round finite, multiple]
    rw [multiple, Nat.mul_assoc, Nat.mul_comm _ denominator] at above
    exact Nat.mul_le_mul_right _ (nearestEven_le place above)
  · have less : x.magnitude * denominator <
        2 ^ 52 * 2 ^ exponentOf numerator denominator * denominator :=
      Nat.mul_lt_mul_of_pos_right smaller divides
    rw [Nat.mul_assoc, Nat.mul_comm (2 ^ _) denominator] at less
    omega

/-- A quotient of nothing rounds to nothing. -/
theorem magnitude_round_zero (divides : 0 < denominator)
    (finite : (round negative 0 denominator).isFinite = true) :
    (round negative 0 denominator).magnitude = 0 :=
  Nat.le_zero.mp (magnitude_round_le (x := zero false) divides (Nat.zero_le _) finite)

/-- A quotient that reaches one unit does not round to nothing. -/
theorem magnitude_round_pos (divides : 0 < denominator) (reached : denominator ≤ numerator)
    (finite : (round negative numerator denominator).isFinite = true) :
    0 < (round negative numerator denominator).magnitude :=
  -- One unit is a number of its own.
  le_magnitude_round (x := .finite false 1 0 (by decide)) divides (by simpa [magnitude]) finite

/-- No count but zero rounds to zero. -/
theorem isZero_round (some : 0 < count) : (round negative count 1).isZero = false := by
  -- An infinite result is not zero, and a finite one keeps a distance from it.
  cases finite : (round negative count 1).isFinite with
  | false => simp [isZero, finite]
  | true =>
    have positive := magnitude_round_pos Nat.one_pos some finite
    rw [isZero, finite, Bool.true_and, beq_eq_false_iff_ne]
    omega

/-- Rounding keeps the sign it is given, also at zero. -/
@[simp] theorem isNegative_round (negative : Bool) (numerator denominator : Nat) :
    (round negative numerator denominator).isNegative = negative := by
  -- Both a finite result and an infinite one have the given sign.
  unfold round
  dsimp only
  split <;> split <;> rfl

end Order

section Units

variable {x : Binary64} {total : Int} {negativeZero : Bool}

/-- A count of units that is not zero is rounded by its distance from zero. -/
theorem ofUnits_of_ne_zero (some : total ≠ 0) :
    ofUnits negativeZero total = round (decide (total < 0)) total.natAbs 1 :=
  if_neg some

/-- No count of units but zero rounds to zero. -/
theorem isZero_ofUnits (some : total ≠ 0) : (ofUnits negativeZero total).isZero = false := by
  rw [ofUnits_of_ne_zero some]
  exact isZero_round (by omega)

/-- A count of units keeps its side of zero. -/
theorem units_ofUnits : (ofUnits negativeZero total).units =
    if total < 0 then -((ofUnits negativeZero total).magnitude : Int)
    else (ofUnits negativeZero total).magnitude := by
  -- Zero may have either sign, and every other count gives its sign to the result.
  by_cases zero : total = 0
  · subst zero
    cases negativeZero <;> rfl
  · rw [ofUnits_of_ne_zero zero, units, isNegative_round]
    simp only [decide_eq_true_eq]

/-- Rounding a count of units keeps how its distance from zero compares with that of a number. -/
theorem magnitude_ofUnits (x : Binary64) (finite : (ofUnits negativeZero total).isFinite = true) :
    (x.magnitude ≤ total.natAbs → x.magnitude ≤ (ofUnits negativeZero total).magnitude) ∧
      (total.natAbs ≤ x.magnitude → (ofUnits negativeZero total).magnitude ≤ x.magnitude) := by
  -- Zero stays zero, and every other count is rounded.
  by_cases zero : total = 0
  · subst zero
    have none : (ofUnits negativeZero 0).magnitude = 0 := by cases negativeZero <;> rfl
    rw [none]
    exact ⟨id, id⟩
  · rw [ofUnits_of_ne_zero zero] at finite ⊢
    exact ⟨fun below => le_magnitude_round Nat.one_pos (by rwa [Nat.mul_one]) finite,
      fun above => magnitude_round_le Nat.one_pos (by rwa [Nat.mul_one]) finite⟩

/-- A count of units that does not pass a number rounds to no more. -/
theorem units_ofUnits_le (above : total ≤ x.units)
    (finite : (ofUnits negativeZero total).isFinite = true) :
    (ofUnits negativeZero total).units ≤ x.units := by
  -- Below zero the order of distances is the other way around.
  obtain ⟨farther, nearer⟩ := magnitude_ofUnits x finite
  rw [units_ofUnits]
  unfold units at above ⊢
  split at above <;> split <;> omega

/-- A count of units that reaches a number rounds to no less. -/
theorem le_units_ofUnits (below : x.units ≤ total)
    (finite : (ofUnits negativeZero total).isFinite = true) :
    x.units ≤ (ofUnits negativeZero total).units := by
  -- Below zero the order of distances is the other way around.
  obtain ⟨farther, nearer⟩ := magnitude_ofUnits x finite
  rw [units_ofUnits]
  unfold units at below ⊢
  split at below <;> split <;> omega

end Units

section Width

variable {x y : Binary64}

/-- The negation is as far on the other side of zero. -/
theorem units_neg (x : Binary64) : x.neg.units = -x.units := by
  -- What is not finite is read as zero on both sides.
  cases x with
  | nan => rfl
  | infinite negative => cases negative <;> rfl
  | finite negative significand exponent canonical =>
    cases negative <;> simp [neg, units, isNegative, magnitude]

/-- What is not finite is read as zero units. -/
theorem units_of_not_isFinite (unbounded : x.isFinite = false) : x.units = 0 := by
  cases x with
  | nan => rfl
  | infinite negative => cases negative <;> rfl
  | finite => cases unbounded

/-- A sum that is not below zero does not come out below zero. -/
theorem units_add_nonneg
    (nonneg : x.isFinite = true → y.isFinite = true → 0 ≤ x.units + y.units) :
    0 ≤ (x.add y).units := by
  cases finite : (x.add y).isFinite with
  | false => exact Int.le_of_eq (units_of_not_isFinite finite).symm
  | true =>
    -- Only two finite numbers have a finite sum, and the rounded one keeps its side of zero.
    cases x <;> cases y <;> simp only [add] at finite <;> try cases finite
    · split at finite <;> cases finite
    · rw [add, units_ofUnits, if_neg (Int.not_lt.mpr (nonneg rfl rfl))]
      exact Int.natCast_nonneg _

/-- A number less one that is not larger does not come out below zero. -/
theorem units_sub_nonneg (ordered : x.isFinite = true → y.isFinite = true → y.units ≤ x.units) :
    0 ≤ (x.sub y).units := by
  refine units_add_nonneg fun finiteLeft finiteRight => ?_
  rw [units_neg]
  have := ordered finiteLeft (by cases y <;> first | rfl | cases finiteRight)
  omega

/-- A number that is not below zero and one more have no sum that is zero. -/
theorem isZero_add_one (nonneg : 0 ≤ x.units) : (x.add (ofInt 1)).isZero = false := by
  -- The one has its place in the middle of the line, so a sum from zero upwards is above zero.
  have one : ofInt 1 = .finite false (2 ^ 52) 1022 (by decide) := by decide +kernel
  rw [one]
  cases x with
  | nan | infinite => rfl
  | finite negative significand exponent canonical =>
    refine isZero_ofUnits ?_
    have positive : 0 < (Binary64.finite false (2 ^ 52) 1022 (by decide)).units := by decide +kernel
    omega

end Width

end Binary64

namespace Number

variable {low high n : Number} {x y : Binary64}

/-- A number that binary64 can hold converts to itself, or as an integer to its rounded units. -/
theorem of_toFloat (converts : n.toFloat = .ok x) : n = .float x ∨ ∃ value : Int,
    n = .int value ∧ x = .ofUnits false (value * Binary64.unitsPerOne) ∧ x.isInfinite = false := by
  -- A float is kept; an integer is rounded, unless that overflows.
  cases n with
  | float value =>
    cases converts
    exact .inl rfl
  | int value =>
    refine .inr ⟨value, rfl, ?_⟩
    simp only [toFloat] at converts
    split at converts
    · cases converts
    · next bounded =>
      cases converts
      exact ⟨rfl, by simpa using bounded⟩

/-- No number but zero converts to zero. -/
theorem isZero_toFloat (some : n.isZero = false) (converts : n.toFloat = .ok x) :
    (Number.float x).isZero = false := by
  -- An integer that is not zero is at least one, which is far more than what rounds to zero.
  rcases of_toFloat converts with rfl | ⟨value, rfl, rfl, -⟩
  · exact some
  · have nonzero : value ≠ 0 := by simpa [isZero] using some
    have positive := Binary64.unitsPerOne_pos
    exact Binary64.isZero_ofUnits (Int.mul_ne_zero nonzero (by omega))

/-- No integer but zero is a divisor that division refuses. -/
theorem quotient_of_ne {a b : Int} (some : b ≠ 0) : quotient a b =
    if (Binary64.ofQuotient a b).isInfinite then .error .overflow
    else .ok (.ofQuotient a b) := by
  rw [quotient, if_neg some]

/-- A division never comes to a divisor that is zero: zeros are told apart before. -/
theorem divide_eq (left right : Number) : left.divide right =
    if right.isZero then do
      if left.isZero || (← left.undefined) then return .float .nan
      let negative := xor (← left.toFloat).isNegative (← right.toFloat).isNegative
      return .float (.infinite negative)
    else
      match left, right with
      | .int a, .int b =>
        if (Binary64.ofQuotient a b).isInfinite then .error .overflow
        else .ok (.float (.ofQuotient a b))
      | left, right => do
        let x ← left.toFloat
        let y ← right.toFloat
        return .float (x.div y) := by
  unfold divide
  by_cases zero : right.isZero = true
  · rw [if_pos zero, if_pos zero]
  · rw [if_neg zero, if_neg zero]
    rw [Bool.not_eq_true] at zero
    -- Two integers have a quotient of their own, and others are converted to numbers but zero.
    have converted : (do
        let x ← left.toFloat
        let y ← right.toFloat
        return Number.float (← floatQuotient x y)) = (do
        let x ← left.toFloat
        let y ← right.toFloat
        return Number.float (x.div y)) := by
      refine check_bind_congr fun x _ => check_bind_congr fun y converts => ?_
      have away : y.isZero = false := isZero_toFloat zero converts
      simp [floatQuotient, away, check_ok_bind, Pure.pure, Except.pure]
    -- Integers are divided as they are only if both are.
    cases left with
    | float x => cases right <;> exact converted
    | int a =>
      cases right with
      | float y => exact converted
      | int b =>
        dsimp only
        rw [quotient_of_ne (by simpa [isZero] using zero)]
        split <;> rfl

/-- A remainder never comes to a divisor that is zero: zeros are told apart before. -/
theorem remainder_eq (left right : Number) : left.remainder right =
    if right.isZero then .ok (.float .nan)
    else
      match left, right with
      | .int a, .int b => .ok (.int (a.tmod b))
      | left, right => do
        let x ← left.toFloat
        let y ← right.toFloat
        if x.isInfinite && !y.isNaN then throw .undefinedRemainder
        return .float (x.rem y) := by
  unfold remainder
  by_cases zero : right.isZero = true
  · rw [if_pos zero, if_pos zero]
  · rw [if_neg zero, if_neg zero]
    rw [Bool.not_eq_true] at zero
    -- Of the two reasons to refuse a remainder, only the infinite dividend is left.
    have converted : (do
        let x ← left.toFloat
        let y ← right.toFloat
        return Number.float (← floatRemainder x y)) = (do
        let x ← left.toFloat
        let y ← right.toFloat
        if x.isInfinite && !y.isNaN then throw Fault.undefinedRemainder
        return Number.float (x.rem y)) := by
      refine check_bind_congr fun x _ => check_bind_congr fun y converts => ?_
      have away : y.isZero = false := isZero_toFloat zero converts
      simp only [floatRemainder, away, Bool.false_and, Bool.or_false]
      split <;> rfl
    -- Two integers have a rest of their own, which has no reason to be refused.
    cases left with
    | float x => cases right <;> exact converted
    | int a =>
      cases right with
      | float y => exact converted
      | int b =>
        have some : b ≠ 0 := by simpa [isZero] using zero
        simp [intRemainder, some, check_ok_bind, Pure.pure, Except.pure]

/-- A count is reduced by any integer width but zero. -/
theorem reduce_int {count : Nat} {width : Int} (some : width ≠ 0) :
    reduce count (.int width) = .ok (.int (Int.emod count width)) :=
  if_neg some

/-- A count is reduced by any binary64 width but zero. -/
theorem reduce_float {count : Nat} {width counted : Binary64} (some : width.isZero = false)
    (converts : (Number.int count).toFloat = .ok counted) :
    reduce count (.float width) = .ok (.float (counted.rem width)) := by
  simp [reduce, converts, check_ok_bind, some, Pure.pure, Except.pure]

/-- Two integers combine exactly, and any other two numbers are converted first. -/
theorem combine_ok {exactly : Int → Int → Int} {rounded : Binary64 → Binary64 → Binary64}
    {left right result : Number} (gave : combine exactly rounded left right = .ok result) :
    (∃ a b, left = .int a ∧ right = .int b ∧ result = .int (exactly a b)) ∨
      ∃ x y, left.toFloat = .ok x ∧ right.toFloat = .ok y ∧ result = .float (rounded x y) ∧
        ((∃ value, left = .float value) ∨ ∃ value, right = .float value) := by
  -- The split is the one of the function itself: two integers, or at least one float.
  unfold combine at gave
  split at gave
  · cases gave
    exact .inl ⟨_, _, rfl, rfl, rfl⟩
  · next mixed =>
    obtain ⟨x, converts, gave⟩ := check_bind_ok gave
    obtain ⟨y, converts', gave⟩ := check_bind_ok gave
    cases gave
    refine .inr ⟨x, y, converts, converts', rfl, ?_⟩
    cases left with
    | float value => exact .inl ⟨value, rfl⟩
    | int a =>
      cases right with
      | float value => exact .inr ⟨value, rfl⟩
      | int b => exact (mixed a b rfl rfl).elim

/-- Of two numbers in order, the places on the line are in order too. -/
theorem point_le {p q : Int} (ordered : high.less low = false)
    (placedHigh : high.place? = some (.point p)) (placedLow : low.place? = some (.point q)) :
    q ≤ p := by
  -- On the line the order is that of the places, and high is not below low.
  have notBelow : decide (p < q) = false := by
    rw [less, placedHigh, placedLow] at ordered
    exact ordered
  have := of_decide_eq_false notBelow
  omega

/-- Numbers in order convert in order, unless both are integers. -/
theorem units_toFloat_le (ordered : high.less low = false) (highConverts : high.toFloat = .ok x)
    (lowConverts : low.toFloat = .ok y)
    (mixed : (∃ value, high = .float value) ∨ ∃ value, low = .float value)
    (finiteHigh : x.isFinite = true) (finiteLow : y.isFinite = true) : y.units ≤ x.units := by
  -- Numbers are compared by their exact units, and an integer is rounded against the other number.
  have places : ∀ value : Binary64, value.isFinite = true →
      value.place? = some (.point value.units) := by
    intro value finite
    cases value <;> first | rfl | cases finite
  rcases of_toFloat highConverts with rfl | ⟨top, rfl, rfl, -⟩ <;>
    rcases of_toFloat lowConverts with rfl | ⟨bottom, rfl, rfl, -⟩
  · exact point_le ordered (places x finiteHigh) (places y finiteLow)
  · have above := point_le ordered (places x finiteHigh) rfl
    exact Binary64.units_ofUnits_le above finiteLow
  · have below := point_le ordered rfl (places y finiteLow)
    exact Binary64.le_units_ofUnits below finiteHigh
  · simp at mixed

/-- One more than the distance between bounds in order is not zero. -/
theorem isZero_width {span width : Number} (ordered : high.less low = false)
    (spans : high.sub low = .ok span) (widens : span.add (.int 1) = .ok width) :
    width.isZero = false := by
  rcases combine_ok spans with
    ⟨top, bottom, rfl, rfl, rfl⟩ | ⟨x, y, highConverts, lowConverts, rfl, mixed⟩
  · -- Between integers the distance is exact.
    rw [int_less_int, decide_eq_false_iff_not] at ordered
    cases widens
    simp only [isZero, beq_eq_false_iff_ne]
    omega
  · -- Rounding keeps the bounds in order, so that their distance is not below zero.
    have bounds := units_toFloat_le ordered highConverts lowConverts mixed
    have nonneg := Binary64.units_sub_nonneg bounds
    rcases combine_ok widens with ⟨_, _, impossible, -, -⟩ | ⟨_, one, same, converts, rfl, -⟩
    · cases impossible
    · cases same
      rcases of_toFloat converts with impossible | ⟨value, same, rfl, -⟩
      · cases impossible
      · cases same
        exact Binary64.isZero_add_one nonneg

end Number
end TrialScript
