/-! Binary64 numbers: every operation takes the exact result and rounds it once. -/

-- Powers of natural numbers are the ones of the core library, whatever else is in scope.
attribute [instance (1100), default_instance (20000)] instPowNat

namespace TrialScript

/-- The significands and exponents that binary64 can hold, with one spelling for each number. -/
def Binary64.Canonical (significand exponent : Nat) : Prop :=
  -- Only the smallest exponent leaves the leading bit of the significand free.
  significand < 2 ^ 53 ∧ exponent ≤ 2045 ∧ (exponent = 0 ∨ 2 ^ 52 ≤ significand)

instance (significand exponent : Nat) : Decidable (Binary64.Canonical significand exponent) := by
  unfold Binary64.Canonical; infer_instance

/-- A binary64 number; finite ones count `significand * 2 ^ exponent` units of `2 ^ -1074`. -/
inductive Binary64 where
  | nan
  | infinite (negative : Bool)
  | finite (negative : Bool) (significand exponent : Nat)
      (canonical : Binary64.Canonical significand exponent)
deriving DecidableEq

namespace Binary64

/-- The number of smallest units in one. -/
def unitsPerOne : Nat := 2 ^ 1074

/-- Zero of either sign. -/
def zero (negative : Bool) : Binary64 :=
  .finite negative 0 0 (by decide)

instance : Inhabited Binary64 := ⟨.nan⟩

/-- The whole number nearest a quotient, a tie going to the even one. -/
def nearestEven (numerator denominator : Nat) : Nat :=
  let whole := numerator / denominator
  let twice := 2 * (numerator % denominator)
  if twice < denominator then whole
  else if denominator < twice then whole + 1
  else whole + whole % 2

/-- The exponent at which a count of units keeps at most fifty-three significant bits. -/
def exponentOf (numerator denominator : Nat) : Nat :=
  -- Subtraction stops at zero, the exponent of the smallest numbers.
  Nat.log2 (numerator / denominator) - 52

/-- The number nearest a quotient of units, infinite once it passes the largest finite one. -/
def round (negative : Bool) (numerator denominator : Nat) : Binary64 :=
  let exponent := exponentOf numerator denominator
  let significand := nearestEven numerator (denominator * 2 ^ exponent)
  -- Rounding up to the next power of two moves one bit from the significand to the exponent.
  let (significand, exponent) :=
    if significand = 2 ^ 53 then (2 ^ 52, exponent + 1) else (significand, exponent)
  if canonical : Canonical significand exponent then
    .finite negative significand exponent canonical
  else .infinite negative

/-- Whether the sign is set, as it is for negative zero. -/
def isNegative : Binary64 → Bool
  | .nan => false
  | .infinite negative => negative
  | .finite negative _ _ _ => negative

/-- Whether this is the value of an undefined operation. -/
def isNaN : Binary64 → Bool
  | .nan => true
  | _ => false

/-- Whether this is infinite. -/
def isInfinite : Binary64 → Bool
  | .infinite _ => true
  | _ => false

/-- Whether this is a real number. -/
def isFinite : Binary64 → Bool
  | .finite .. => true
  | _ => false

/-- The distance from zero in units, read as zero where there is none. -/
def magnitude : Binary64 → Nat
  | .finite _ significand exponent _ => significand * 2 ^ exponent
  | _ => 0

/-- The exact value in units, read as zero where there is none. -/
def units (x : Binary64) : Int :=
  if x.isNegative then -(x.magnitude : Int) else x.magnitude

/-- Whether this is zero of either sign. -/
def isZero (x : Binary64) : Bool :=
  x.isFinite && x.magnitude == 0

/-- Whether this is a finite whole number. -/
def isIntegral (x : Binary64) : Bool :=
  x.isFinite && x.magnitude % unitsPerOne == 0

/-- The number nearest an exact count of units, with a given sign for zero. -/
def ofUnits (negativeZero : Bool) (total : Int) : Binary64 :=
  if total = 0 then zero negativeZero else round (decide (total < 0)) total.natAbs 1

/-- The number nearest an integer, infinite where it is too large. -/
def ofInt (n : Int) : Binary64 :=
  ofUnits false (n * unitsPerOne)

/-- The number nearest a quotient of integers. -/
def ofQuotient (numerator denominator : Int) : Binary64 :=
  round (xor (decide (numerator < 0)) (decide (denominator < 0)))
    (numerator.natAbs * unitsPerOne) denominator.natAbs

/-- The opposite number. -/
def neg : Binary64 → Binary64
  | .nan => .nan
  | .infinite negative => .infinite (!negative)
  | .finite negative significand exponent canonical =>
    .finite (!negative) significand exponent canonical

/-- The sum, where opposite infinities have none. -/
def add : Binary64 → Binary64 → Binary64
  | .nan, _ => .nan
  | _, .nan => .nan
  | .infinite left, .infinite right => if left = right then .infinite left else .nan
  | .infinite left, .finite .. => .infinite left
  | .finite .., .infinite right => .infinite right
  -- Finite numbers are added exactly, by their units, and rounded once; only two negative zeros
  -- make a negative one.
  | x@(.finite left ..), y@(.finite right ..) => ofUnits (left && right) (x.units + y.units)

/-- The difference. -/
def sub (x y : Binary64) : Binary64 :=
  x.add y.neg

/-- The product, where zero times infinity has none. -/
def mul (x y : Binary64) : Binary64 :=
  let negative := xor x.isNegative y.isNegative
  if x.isNaN || y.isNaN then .nan
  else if x.isInfinite || y.isInfinite then
    if x.isZero || y.isZero then .nan else .infinite negative
  else round negative (x.magnitude * y.magnitude) unitsPerOne

/-- The quotient, where a nonzero number over zero is infinite. -/
def div (x y : Binary64) : Binary64 :=
  let negative := xor x.isNegative y.isNegative
  if x.isNaN || y.isNaN || (x.isInfinite && y.isInfinite) || (x.isZero && y.isZero) then .nan
  else if x.isInfinite || y.isZero then .infinite negative
  else if y.isInfinite then zero negative
  else round negative (x.magnitude * unitsPerOne) y.magnitude

/-- The exact remainder of division toward zero, whose sign is the dividend's. -/
def rem (x y : Binary64) : Binary64 :=
  if x.isNaN || y.isNaN || x.isInfinite || y.isZero then .nan
  else if y.isInfinite then x
  else round x.isNegative (x.magnitude % y.magnitude) 1

/-- The integer part, toward zero. -/
def truncate (x : Binary64) : Int :=
  let whole : Int := x.magnitude / unitsPerOne
  if x.isNegative then -whole else whole

/-- The nearest integer, halves going away from zero. -/
def roundHalfAway (x : Binary64) : Int :=
  let whole := x.magnitude / unitsPerOne
  let rest := x.magnitude % unitsPerOne
  let nearest : Int := if unitsPerOne ≤ 2 * rest then whole + 1 else whole
  if x.isNegative then -nearest else nearest

/-- The number a decimal text denotes: a digit string scaled by a power of ten. -/
def ofDecimal (negative : Bool) (digits : Nat) (exponent : Int) : Binary64 :=
  if digits = 0 then zero negative
  -- Past these exponents the answer no longer depends on the digits.
  else if 400 < exponent then .infinite negative
  else if exponent < -(400 + Nat.log2 digits : Int) then zero negative
  else if 0 ≤ exponent then round negative (digits * 10 ^ exponent.toNat * unitsPerOne) 1
  else round negative (digits * unitsPerOne) (10 ^ (-exponent).toNat)

end Binary64
end TrialScript
