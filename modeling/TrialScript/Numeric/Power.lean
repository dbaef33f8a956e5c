import TrialScript.Numeric.Arithmetic

/-! Powers of sixteen with binary64 exponents, computed with guard bits and rounded once. -/

namespace TrialScript.Power

/-- The bits of a fixed-point fraction. -/
def fractionBits : Nat := 192

/-- One step of a search for the integer square root, from the given bit down. -/
def rootFrom (n : Nat) : Nat → Nat → Nat
  | 0, root => root
  | bit + 1, root =>
    let raised := root + 2 ^ bit
    rootFrom n bit (if raised * raised ≤ n then raised else root)

/-- The integer part of a square root. -/
def squareRoot (n : Nat) : Nat :=
  rootFrom n (n.log2 / 2 + 1) 0

/-- Two to a fraction in fixed point, one factor for each set bit of the fraction. -/
def twoToFraction (denominator : Nat) : Nat → Nat → Nat → Nat → Nat
  | 0, _, _, product => product
  | bits + 1, rest, root, product =>
    -- Each factor is the square root of the one before.
    let root := squareRoot (root * 2 ^ fractionBits)
    let doubled := 2 * rest
    if denominator ≤ doubled then
      twoToFraction denominator bits (doubled - denominator) root
        (product * root / 2 ^ fractionBits)
    else twoToFraction denominator bits doubled root product

/-- A fixed-point number scaled by a power of two, rounded to binary64. -/
def scaled (fixed : Nat) (exponent : Int) : Binary64 :=
  let shift := exponent + 1074
  if exponent < -1200 then .zero false
  else Binary64.round false (fixed * 2 ^ shift.toNat) (2 ^ (fractionBits + (-shift).toNat))

/-- Sixteen to a binary64 power, which can be too large. -/
def sixteenTo (x : Binary64) : Except Fault Binary64 :=
  match x with
  | .nan => .ok .nan
  | .infinite negative => .ok (if negative then .zero false else .infinite false)
  | x =>
    -- Two to four times the exponent, split into a whole and a fractional power.
    let exponent := 4 * x.units
    let whole := exponent / Binary64.unitsPerOne
    let rest := (exponent % Binary64.unitsPerOne).toNat
    if 1024 ≤ whole then .error .overflow
    else
      let one := 2 ^ fractionBits
      let fixed := twoToFraction Binary64.unitsPerOne 160 rest (2 * one) one
      let power := scaled fixed whole
      if power.isInfinite then .error .overflow else .ok power

end TrialScript.Power
