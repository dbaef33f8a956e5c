import TrialScript.Numeric.Binary64
import TrialScript.Text.Digits

/-! Decimal text of a binary64 number: the fewest digits that read back to it. -/

namespace TrialScript

/-- A positive decimal: a whole number of units of a power of ten. -/
structure Decimal where
  digits : Nat
  exponent : Int
deriving DecidableEq

namespace Decimal

/-- The numerator over which a grid of powers of ten becomes whole. -/
def gridNumerator (exponent : Int) : Nat :=
  10 ^ exponent.toNat

/-- The denominator over which a grid of powers of ten becomes whole. -/
def gridDenominator (exponent : Int) : Nat :=
  10 ^ (-exponent).toNat

/-- The exponent of the leading digit of a positive quotient, searched upward from a low guess. -/
def leadingExponent (numerator denominator : Nat) : Nat → Int → Int
  -- The search stops at the last power of ten that does not pass the quotient.
  | 0, guess => guess
  | steps + 1, guess =>
    if gridNumerator (guess + 1) * denominator ≤ numerator * gridDenominator (guess + 1) then
      leadingExponent numerator denominator steps (guess + 1)
    else guess

/-- The interval of quarter units that rounds to one significand, with whether its ends belong. -/
structure Interval where
  low : Nat
  value : Nat
  high : Nat
  closed : Bool

/-- Quarter units around a positive number, up to halfway to each neighbour. -/
def Interval.around (significand exponent : Nat) : Interval :=
  let unit := 2 ^ exponent
  -- Below a power of two the neighbours are half as far apart.
  let below := if significand = 2 ^ 52 ∧ exponent ≠ 0 then unit else 2 * unit
  { low := 4 * significand * unit - below
    value := 4 * significand * unit
    high := 4 * significand * unit + 2 * unit
    closed := significand % 2 == 0 }

/-- Whether a decimal, scaled like the interval, rounds to the same number. -/
def Interval.holds (range : Interval) (scale point : Nat) : Bool :=
  if range.closed then decide (range.low * scale ≤ point ∧ point ≤ range.high * scale)
  else decide (range.low * scale < point ∧ point < range.high * scale)

/-- The decimal of one grid that lies nearest inside the interval, if there is one. -/
def onGrid (range : Interval) (exponent : Int) : Option Decimal :=
  -- One step of the grid is `step` over `scale` quarter units.
  let step := 4 * Binary64.unitsPerOne * gridNumerator exponent
  let scale := gridDenominator exponent
  let floor := range.value * scale / step
  let below := range.holds scale (floor * step)
  let above := range.holds scale ((floor + 1) * step)
  let rest := 2 * (range.value * scale % step)
  if below && above then
    if rest < step || (rest = step && floor % 2 = 0) then some ⟨floor, exponent⟩
    else some ⟨floor + 1, exponent⟩
  else if below then some ⟨floor, exponent⟩
  else if above then some ⟨floor + 1, exponent⟩
  else none

/-- The first grid with a decimal inside the interval, each grid ten times finer than the last. -/
def firstOnGrid (range : Interval) : Nat → Int → Option Decimal
  | 0, _ => none
  | grids + 1, exponent =>
    match onGrid range exponent with
    | some decimal => some decimal
    | none => firstOnGrid range grids (exponent - 1)

/-- The shortest decimal that rounds to a positive binary64 number, and of those the nearest. -/
def shortest (significand exponent : Nat) : Decimal :=
  let range := Interval.around significand exponent
  let leading := leadingExponent range.value (4 * Binary64.unitsPerOne) 640 (-325)
  -- Seventeen digits always tell two neighbours apart.
  (firstOnGrid range 17 leading).getD ⟨significand, 0⟩

/-- Digits without trailing zeros, and the exponent of the leading one. -/
def significant (decimal : Decimal) : List Char × Int :=
  let digits := digitsOf decimal.digits
  let kept := (digits.reverse.dropWhile (· == '0')).reverse
  (kept, decimal.exponent + digits.length - 1)

/-- Digits around a decimal point, with at least one on each side. -/
def positional (digits : List Char) (leading : Int) : List Char :=
  if leading < 0 then
    '0' :: '.' :: List.replicate ((-leading).toNat - 1) '0' ++ digits
  else
    let whole := digits.take (leading.toNat + 1)
    -- Places before the point that have no digit are zeros, and at least one digit follows it.
    let zeros := List.replicate (leading.toNat + 1 - whole.length) '0'
    let fraction := digits.drop (leading.toNat + 1)
    whole ++ zeros ++ '.' :: (if fraction.isEmpty then ['0'] else fraction)

/-- One digit before the point, and a signed exponent of at least two digits. -/
def scientific (digits : List Char) (leading : Int) : List Char :=
  let sign := if leading < 0 then '-' else '+'
  let tail := digits.drop 1
  digits.take 1 ++ (if tail.isEmpty then [] else '.' :: tail) ++
    'e' :: sign :: (padded 2 leading.natAbs).toList

/-- Positional text from a ten-thousandth up to sixteen whole digits, scientific text beyond. -/
def layout (decimal : Decimal) : String :=
  let (digits, leading) := decimal.significant
  String.ofList (if -4 ≤ leading ∧ leading < 16 then positional digits leading
    else scientific digits leading)

end Decimal

/-- The text of a number, which reads back to the same number. -/
def Binary64.text : Binary64 → String
  | .nan => "nan"
  | .infinite negative => if negative then "-inf" else "inf"
  | .finite negative significand exponent _ =>
    (if negative then "-" else "") ++
      (if significand = 0 then "0.0" else (Decimal.shortest significand exponent).layout)

end TrialScript
