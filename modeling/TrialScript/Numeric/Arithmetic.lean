import TrialScript.Fault

/-! Arithmetic on numbers: integers stay exact, and mixed kinds meet in binary64. -/

namespace TrialScript.Number

/-- The binary64 number nearest a number; an integer can be too large for one. -/
def toFloat : Number → Except Fault Binary64
  | .float value => .ok value
  | .int value =>
    let nearest := Binary64.ofInt value
    if nearest.isInfinite then .error .overflow else .ok nearest

/-- Applies an integer operation to two integers and a binary64 operation to any other pair. -/
def combine (exact : Int → Int → Int) (rounded : Binary64 → Binary64 → Binary64) :
    Number → Number → Except Fault Number
  -- Two integers stay exact; any float makes both of them floats.
  | .int left, .int right => .ok (.int (exact left right))
  | left, right => do
    let x ← left.toFloat
    let y ← right.toFloat
    return .float (rounded x y)

/-- The sum. -/
def add : Number → Number → Except Fault Number :=
  combine (· + ·) Binary64.add

/-- The difference. -/
def sub : Number → Number → Except Fault Number :=
  combine (· - ·) Binary64.sub

/-- The product. -/
def mul : Number → Number → Except Fault Number :=
  combine (· * ·) Binary64.mul

/-- Whether a number is undefined, asked of a number that fits in binary64. -/
def undefined (n : Number) : Except Fault Bool := do
  return (← n.toFloat).isNaN

/-- The binary64 number nearest the quotient of two integers; it can be too large for one. -/
def quotient (left right : Int) : Except Fault Binary64 :=
  if right = 0 then .error .divisionByZero
  else
    let nearest := Binary64.ofQuotient left right
    if nearest.isInfinite then .error .overflow else .ok nearest

/-- The quotient of two binary64 numbers, of which the divisor is not zero. -/
def floatQuotient (left right : Binary64) : Except Fault Binary64 :=
  if right.isZero then .error .divisionByZero else .ok (left.div right)

/-- The quotient, where a number over zero is infinite and zero over zero is undefined. -/
def divide (left right : Number) : Except Fault Number :=
  if right.isZero then do
    -- Over zero only the signs matter, and zero over zero is undefined.
    if left.isZero || (← left.undefined) then return .float .nan
    let negative := xor (← left.toFloat).isNegative (← right.toFloat).isNegative
    return .float (.infinite negative)
  else
    match left, right with
    -- Two integers are divided exactly, and rounded once.
    | .int left, .int right => do return .float (← quotient left right)
    | left, right => do
      let x ← left.toFloat
      let y ← right.toFloat
      return .float (← floatQuotient x y)

/-- The remainder toward zero of two integers, of which the divisor is not zero. -/
def intRemainder (left right : Int) : Except Fault Int :=
  if right = 0 then .error .divisionByZero else .ok (left.tmod right)

/-- The remainder toward zero of two binary64 numbers, which only undefined ones always have. -/
def floatRemainder (left right : Binary64) : Except Fault Binary64 :=
  -- Neither an infinite number nor a division by zero leaves a remainder.
  if (left.isInfinite && !right.isNaN) || (right.isZero && !left.isNaN) then
    .error .undefinedRemainder
  else .ok (left.rem right)

/-- The remainder toward zero, whose sign is the dividend's; over zero it is undefined. -/
def remainder (left right : Number) : Except Fault Number :=
  -- Over zero the dividend is not looked at.
  if right.isZero then .ok (.float .nan)
  else
    match left, right with
    | .int left, .int right => do return .int (← intRemainder left right)
    | left, right => do
      let x ← left.toFloat
      let y ← right.toFloat
      return .float (← floatRemainder x y)

/-- What is left of a count after taking a positive width out of it as often as possible. -/
def reduce (count : Nat) (width : Number) : Except Fault Number :=
  match width with
  | .int width =>
    if width = 0 then .error .divisionByZero else .ok (.int (Int.emod count width))
  | .float width => do
    -- The count is converted before the width is looked at.
    let x ← toFloat (.int count)
    if width.isZero then throw .divisionByZero
    return .float (x.rem width)

/-- The integer part of a number, which numbers that are not finite do not have. -/
def whole : Number → Except Fault Int
  | .int value => .ok value
  | .float .nan => .error .noInteger
  | .float (.infinite _) => .error .overflow
  | .float value => .ok value.truncate

/-- The nearest integer, halves going away from zero; numbers without one stay as they are. -/
def roundHalfAway : Number → Except Fault Number
  | .int value => do
    let _ ← toFloat (.int value)
    return .int value
  | .float value => .ok (if value.isFinite then .int value.roundHalfAway else .float value)

/-- The smaller number, the first where neither is smaller. -/
def least (left right : Number) : Number :=
  if right.less left then right else left

/-- The larger number, the first where neither is larger. -/
def greatest (left right : Number) : Number :=
  if left.less right then right else left

/-- Whether a number counts as true: anything but zero and the undefined number. -/
def truthy (n : Number) : Except Fault Bool :=
  if n.isZero then .ok false else do return !(← n.undefined)

end TrialScript.Number

namespace TrialScript

/-- The functions of two numbers that scripts calculate with. -/
inductive Arithmetic where
  | add
  | subtract
  | multiply
  | divide
  | remainder
  | least
  | greatest
deriving DecidableEq

/-- Applies a function to two numbers. -/
def Arithmetic.apply : Arithmetic → Number → Number → Except Fault Number
  | .add, left, right => left.add right
  | .subtract, left, right => left.sub right
  | .multiply, left, right => left.mul right
  | .divide, left, right => left.divide right
  | .remainder, left, right => left.remainder right
  | .least, left, right => .ok (left.least right)
  | .greatest, left, right => .ok (left.greatest right)

end TrialScript
