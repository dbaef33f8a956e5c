import TrialScript.Proofs.Numeric.Overflow
import TrialScript.Proofs.Numeric.Unrounded

/-! The numbers on which each function of arithmetic has a result. -/

namespace TrialScript

namespace Number

variable {left right n : Number}

/-- A number that binary64 has room for: one of its own, or an integer within the limit. -/
def Fits : Number → Prop
  | .int value => value.natAbs < Binary64.limit
  | .float _ => True

instance : (n : Number) → Decidable n.Fits
  | .int value => inferInstanceAs (Decidable (value.natAbs < Binary64.limit))
  | .float _ => inferInstanceAs (Decidable True)

/-- Whether a number is infinite, which no integer is. -/
def isInfinite : Number → Bool
  | .int _ => false
  | .float value => value.isInfinite

/-- Whether the sign of a number is set. -/
def isNegative : Number → Bool
  | .int value => decide (value < 0)
  | .float value => value.isNegative

/-- Whether a number is an integer, whatever its size. -/
def isInt : Number → Bool
  | .int _ => true
  | .float _ => false

/-- An integer is rounded to infinity exactly from the limit on. -/
theorem isInfinite_ofInt (value : Int) :
    (Binary64.ofInt value).isInfinite = true ↔ Binary64.limit ≤ value.natAbs := by
  have units := Binary64.unitsPerOne_pos
  unfold Binary64.ofInt
  by_cases zero : value = 0
  · -- Zero keeps its place, and the limit is somewhere else.
    subst zero
    simp only [Int.zero_mul, Binary64.ofUnits, if_true, Binary64.zero, Binary64.isInfinite,
      Int.natAbs_zero, Bool.false_eq_true, false_iff]
    exact Nat.not_le.mpr Binary64.limit_pos
  · have some : value * Binary64.unitsPerOne ≠ 0 := Int.mul_ne_zero zero (by omega)
    rw [Binary64.ofUnits_of_ne_zero some, Binary64.isInfinite_round Nat.one_pos, Nat.mul_one,
      Int.natAbs_mul, Int.natAbs_natCast]
    exact Nat.mul_le_mul_right_iff units

/-- The sign of an integer stays when it is rounded. -/
theorem isNegative_ofInt (value : Int) : (Binary64.ofInt value).isNegative = decide (value < 0) := by
  -- Zero has no sign; otherwise the sign is that of the units, which have that of the integer.
  have units := Binary64.unitsPerOne_pos
  unfold Binary64.ofInt Binary64.ofUnits
  split
  · next none =>
    have zero : value = 0 := (Int.mul_eq_zero.mp none).resolve_right (by omega)
    subst zero
    rfl
  · have positive := Binary64.natCast_unitsPerOne_pos
    rw [Binary64.isNegative_round, decide_eq_decide]
    refine ⟨fun below => ?_, fun negative => Int.mul_neg_of_neg_of_pos negative positive⟩
    exact Int.not_le.mp fun nonneg => Int.not_lt.mpr (Int.mul_nonneg nonneg positive.le) below

/-- A number that fits converts to one of the same sign, infinite or undefined only as it was. -/
theorem Fits.toFloat (fits : n.Fits) : ∃ x, n.toFloat = .ok x ∧
    x.isNegative = n.isNegative ∧ x.isInfinite = n.isInfinite ∧ x.isNaN = n.isNaN := by
  -- A number in binary64 stays what it is, and an integer that fits stays below the limit.
  cases n with
  | float value => exact ⟨value, rfl, rfl, rfl, rfl⟩
  | int value =>
    have bounded : (Binary64.ofInt value).isInfinite = false := by
      rw [← Bool.not_eq_true, isInfinite_ofInt]
      exact Nat.not_le.mpr fits
    exact ⟨_, toFloat_int bounded, isNegative_ofInt value, bounded, Binary64.isNaN_ofUnits⟩

/-- Exactly the numbers that fit convert. -/
theorem succeeds_toFloat : Succeeds n.toFloat ↔ n.Fits := by
  -- Only an integer from the limit on is refused.
  constructor
  · rintro ⟨x, converts⟩
    rcases of_toFloat converts with rfl | ⟨value, rfl, rfl, bounded⟩
    · trivial
    · rw [← Bool.not_eq_true] at bounded
      exact Nat.not_le.mp fun above => bounded ((isInfinite_ofInt value).mpr above)
  · intro fits
    obtain ⟨x, converts, -⟩ := fits.toFloat
    exact ⟨x, converts⟩

/-- A number that converts is infinite or undefined only if the result is. -/
theorem converted {x : Binary64} (converts : n.toFloat = .ok x) :
    n.Fits ∧ x.isInfinite = n.isInfinite ∧ x.isNaN = n.isNaN := by
  -- The number that was converted is the one that fitting promises.
  have fits := succeeds_toFloat.mp ⟨x, converts⟩
  obtain ⟨y, converts', -, infinite, undefined⟩ := fits.toFloat
  cases converts.symm.trans converts'
  exact ⟨fits, infinite, undefined⟩

/-- A number that binary64 has no room for does not convert. -/
theorem toFloat_of_not_fits (large : ¬ n.Fits) : n.toFloat = .error .overflow := by
  cases n with
  | float value => exact (large trivial).elim
  | int value => exact if_pos ((isInfinite_ofInt value).mpr (Nat.not_lt.mp large))

/-- Two numbers are converted one after the other if both fit. -/
theorem succeeds_both {α : Type} {rest : Binary64 → Binary64 → Except Fault α}
    (always : ∀ x y, Succeeds (rest x y)) :
    Succeeds (do rest (← left.toFloat) (← right.toFloat)) ↔ left.Fits ∧ right.Fits := by
  -- The second number is converted once the first one has been.
  simp only [Succeeds.bind_iff, ← succeeds_toFloat]
  constructor
  · rintro ⟨x, converts, y, converts', -⟩
    exact ⟨⟨x, converts⟩, ⟨y, converts'⟩⟩
  · rintro ⟨⟨x, converts⟩, ⟨y, converts'⟩⟩
    exact ⟨x, converts, y, converts', always x y⟩

/-- Two numbers that are not written as integers are not both integers. -/
theorem not_both_isInt (mixed : ∀ a b, left = .int a → right = .int b → False) :
    ¬ (left.isInt = true ∧ right.isInt = true) := by
  -- Each number is of one of the two kinds.
  rintro ⟨isLeft, isRight⟩
  cases left with
  | float x => cases isLeft
  | int a =>
    cases right with
    | float y => cases isRight
    | int b => exact mixed a b rfl rfl

/-- Two integers combine, and two other numbers do if both fit. -/
theorem succeeds_combine {exactly : Int → Int → Int} {rounded : Binary64 → Binary64 → Binary64} :
    Succeeds (combine exactly rounded left right) ↔
      left.isInt = true ∧ right.isInt = true ∨ left.Fits ∧ right.Fits := by
  unfold combine
  split
  · exact ⟨fun _ => .inl ⟨rfl, rfl⟩, fun _ => .ok _⟩
  · next mixed =>
    -- Of two numbers that are not both integers, each has to be converted.
    rw [or_iff_right (not_both_isInt mixed)]
    exact succeeds_both fun x y => .ok _

section Mixed

variable {x y : Binary64} {exactly : Int → Int → Int} {rounded : Binary64 → Binary64 → Binary64}
  (mixed : ¬ (left.isInt = true ∧ right.isInt = true))

include mixed

/-- Of two numbers that are not both integers one is in binary64. -/
theorem exists_float :
    (∃ value, left = .float value) ∨ ∃ value, right = .float value := by
  -- If neither were in binary64, both would be integers.
  cases left with
  | float value => exact .inl ⟨value, rfl⟩
  | int a =>
    cases right with
    | float value => exact .inr ⟨value, rfl⟩
    | int b => exact (mixed ⟨rfl, rfl⟩).elim

/-- Two numbers that are not both integers are combined after each of them is converted. -/
theorem combine_of_toFloat (converts : left.toFloat = .ok x) (converts' : right.toFloat = .ok y) :
    combine exactly rounded left right = .ok (.float (rounded x y)) := by
  -- The split is on the two integers, which are excluded.
  unfold combine
  split
  · exact (mixed ⟨rfl, rfl⟩).elim
  · rw [converts, converts']
    rfl

/-- Two numbers that are not both integers do not combine unless both can be converted. -/
theorem combine_of_not_fits (large : ¬ (left.Fits ∧ right.Fits)) :
    combine exactly rounded left right = .error .overflow := by
  -- The first number that does not fit stops the calculation.
  unfold combine
  split
  · exact (mixed ⟨rfl, rfl⟩).elim
  · by_cases fits : left.Fits
    · obtain ⟨x, converts, -⟩ := fits.toFloat
      rw [converts, toFloat_of_not_fits fun fits' => large ⟨fits, fits'⟩]
      rfl
    · rw [toFloat_of_not_fits fits]
      rfl

end Mixed

/-- Over zero the dividend decides, once it is converted. -/
theorem divide_by_zero (zero : right.isZero = true) (fits : left.Fits) :
    divide left right = .ok (.float (if left.isZero || left.isNaN then .nan
      else .infinite (xor left.isNegative right.isNegative))) := by
  -- A zero of either kind fits, and signs stay when numbers are converted.
  have fitsRight : right.Fits := by
    cases right with
    | float y => trivial
    | int divisor =>
      have none : divisor = 0 := by simpa [isZero] using zero
      subst none
      decide +kernel
  obtain ⟨x, converts, signs, -, undefined⟩ := fits.toFloat
  obtain ⟨y, converts', signs', -, -⟩ := fitsRight.toFloat
  rw [divide_eq, if_pos zero, Number.undefined, converts, converts', ← signs, ← signs', ← undefined]
  cases nothing : left.isZero || x.isNaN <;> simp only [Bind.bind, Except.bind, Pure.pure,
    Except.pure, nothing, if_true, if_false, Bool.false_eq_true]

/-- Over another integer, an integer has a quotient if that is below the limit. -/
theorem succeeds_divide_int {dividend divisor : Int} (some : divisor ≠ 0) :
    Succeeds (divide (.int dividend) (.int divisor)) ↔
      dividend.natAbs < Binary64.limit * divisor.natAbs := by
  have units := Binary64.unitsPerOne_pos
  have positive : 0 < divisor.natAbs := by omega
  -- Both sides of the comparison are scaled by the units in one.
  have bounded : (Binary64.ofQuotient dividend divisor).isInfinite = true ↔
      Binary64.limit * divisor.natAbs ≤ dividend.natAbs := by
    rw [Binary64.ofQuotient, Binary64.isInfinite_round positive, Nat.mul_right_comm]
    exact Nat.mul_le_mul_right_iff units
  rw [divide_eq, if_neg (by simpa [isZero] using some)]
  dsimp only
  split
  · next infinite =>
    have above := bounded.mp infinite
    exact ⟨fun found => (Succeeds.not_error _ found).elim, by omega⟩
  · next finite =>
    exact ⟨fun _ => Nat.not_le.mp fun above => finite (bounded.mpr above), fun _ => .ok _⟩

/-- The pairs of numbers that have a quotient. -/
def Divides : Number → Number → Prop
  -- Over zero an integer is still converted, as if it were divided by one.
  | .int dividend, .int divisor => dividend.natAbs < Binary64.limit * max divisor.natAbs 1
  | dividend, divisor => dividend.Fits ∧ divisor.Fits

/-- The pairs of numbers that have a remainder. -/
def Reduces (left right : Number) : Prop :=
  right.isZero = true ∨ left.isInt = true ∧ right.isInt = true ∨
    left.Fits ∧ right.Fits ∧ (left.isInfinite = true → right.isNaN = true)

/-- Division succeeds exactly where there is a quotient. -/
theorem succeeds_divide : Succeeds (divide left right) ↔ left.Divides right := by
  by_cases zero : right.isZero = true
  · -- Only the dividend is converted, and it has to fit.
    have onlyLeft : Succeeds (divide left right) ↔ left.Fits := by
      refine ⟨fun found => ?_, fun fits => ⟨_, divide_by_zero zero fits⟩⟩
      rw [divide_eq, if_pos zero] at found
      obtain ⟨undefined, asked, -⟩ := Succeeds.bind_iff.mp found
      obtain ⟨x, converts, -⟩ := check_bind_ok asked
      exact (converted converts).1
    rw [onlyLeft]
    cases left with
    | float x => cases right <;> simp_all [Divides, Fits, isZero, Binary64.limit_pos]
    | int dividend => cases right <;> simp_all [Divides, Fits, isZero]
  · -- Two integers are divided exactly, and any other two numbers are both converted.
    have mixed : ¬ (left.isInt = true ∧ right.isInt = true) →
        (Succeeds (divide left right) ↔ left.Fits ∧ right.Fits) := by
      intro apart
      rw [divide_eq, if_neg zero]
      cases left <;> cases right <;>
        first | exact (apart ⟨rfl, rfl⟩).elim | exact succeeds_both fun x y => .ok _
    cases left with
    | float x => cases right <;> exact mixed (by simp [isInt])
    | int dividend =>
      cases right with
      | float y => exact mixed (by simp [isInt])
      | int divisor =>
        have some : divisor ≠ 0 := by simpa [isZero] using zero
        rw [succeeds_divide_int some, Divides, Nat.max_eq_left (by omega)]

/-- The remainder succeeds exactly where there is one. -/
theorem succeeds_remainder : Succeeds (remainder left right) ↔ left.Reduces right := by
  rw [remainder_eq, Reduces]
  split
  · next zero => exact ⟨fun _ => .inl zero, fun _ => .ok _⟩
  · next some =>
    rw [or_iff_right some]
    split
    · exact ⟨fun _ => .inl ⟨rfl, rfl⟩, fun _ => .ok _⟩
    · next mixed =>
      rw [or_iff_right (not_both_isInt mixed)]
      -- Both numbers are converted, and then the dividend must not be infinite.
      constructor
      · intro found
        obtain ⟨x, converts, found⟩ := Succeeds.bind_iff.mp found
        obtain ⟨y, converts', found⟩ := Succeeds.bind_iff.mp found
        obtain ⟨fits, infinite, -⟩ := converted converts
        obtain ⟨fits', -, undefined⟩ := converted converts'
        have goes := (Succeeds.guard_iff.mp found).1
        rw [infinite, undefined] at goes
        exact ⟨fits, fits', fun unbounded => by simpa [unbounded] using goes⟩
      -- Only an infinite dividend would be refused.
      · rintro ⟨fits, fits', finite⟩
        obtain ⟨x, converts, -, infinite, -⟩ := fits.toFloat
        obtain ⟨y, converts', -, -, undefined⟩ := fits'.toFloat
        refine Succeeds.bind_iff.mpr ⟨x, converts, Succeeds.bind_iff.mpr ⟨y, converts', ?_⟩⟩
        refine Succeeds.guard_iff.mpr ⟨?_, .ok _⟩
        rw [infinite, undefined]
        simpa using finite

/-- Over zero the remainder is undefined, whatever the dividend is. -/
theorem remainder_by_zero (zero : right.isZero = true) :
    remainder left right = .ok (.float .nan) := by
  unfold remainder
  exact if_pos zero

/-- An infinite number has no remainder over a number that is neither zero nor undefined. -/
theorem remainder_infinite (infinite : left.isInfinite = true) (some : right.isZero = false)
    (defined : right.isNaN = false) (fits : right.Fits) :
    remainder left right = .error .undefinedRemainder := by
  cases left with
  | int dividend => cases infinite
  | float x =>
    obtain ⟨y, converts, -, -, undefined⟩ := fits.toFloat
    have unbounded : x.isInfinite = true := infinite
    rw [← undefined] at defined
    -- Both numbers convert, and the guard stops at the dividend.
    have stops : (do
        let y ← right.toFloat
        if x.isInfinite && !y.isNaN then throw Fault.undefinedRemainder
        return Number.float (x.rem y)) = .error .undefinedRemainder := by
      rw [converts]
      simp only [Bind.bind, Except.bind, unbounded, defined, Bool.not_false, Bool.and_true, if_true]
      rfl
    rw [remainder_eq, if_neg (by simp [some])]
    cases right <;> exact stops

end Number

/-- The pairs of numbers on which a function has a result. -/
def Arithmetic.Defined (left right : Number) : Arithmetic → Prop
  | .add | .subtract | .multiply =>
    left.isInt = true ∧ right.isInt = true ∨ left.Fits ∧ right.Fits
  | .divide => left.Divides right
  | .remainder => left.Reduces right
  | .least | .greatest => True

/-- A function of numbers succeeds exactly where it is defined. -/
theorem Arithmetic.succeeds_apply {function : Arithmetic} {left right : Number} :
    Succeeds (function.apply left right) ↔ function.Defined left right := by
  -- Every function has its own lemma, and the smaller or larger of two numbers is always defined.
  cases function with
  | add | subtract | multiply => exact Number.succeeds_combine
  | divide => exact Number.succeeds_divide
  | remainder => exact Number.succeeds_remainder
  | least | greatest => exact ⟨fun _ => trivial, fun _ => .ok _⟩

end TrialScript
