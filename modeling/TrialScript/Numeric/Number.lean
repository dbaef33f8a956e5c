import TrialScript.Numeric.Decimal

/-! Numbers of two kinds, compared by exact value across the kinds. -/

namespace TrialScript

/-- An unbounded integer or a binary64 number; the kinds stay apart even where values agree. -/
inductive Number where
  | int (value : Int)
  | float (value : Binary64)
deriving DecidableEq

/-- A place on the number line, counted in the smallest binary64 units, with both ends. -/
inductive Place where
  | lowest
  | point (units : Int)
  | highest
deriving DecidableEq

/-- Whether one place lies strictly before another. -/
def Place.before : Place → Place → Bool
  | .lowest, .lowest => false
  | .lowest, _ => true
  | .point _, .lowest => false
  | .point left, .point right => decide (left < right)
  | .point _, .highest => true
  | .highest, _ => false

/-- The place of a binary64 number; the undefined one has none. -/
def Binary64.place? : Binary64 → Option Place
  | .nan => none
  | .infinite negative => some (if negative then .lowest else .highest)
  | x@(.finite ..) => some (.point x.units)

namespace Number

instance : Inhabited Number := ⟨.int 0⟩

/-- The place of a number; every integer has one. -/
def place? : Number → Option Place
  | .int value => some (.point (value * Binary64.unitsPerOne))
  | .float value => value.place?

/-- Whether two numbers have the same exact value; the undefined one equals nothing. -/
def equals (left right : Number) : Bool :=
  match left.place?, right.place? with
  | some x, some y => x == y
  | _, _ => false

/-- Whether one number is strictly smaller by exact value. -/
def less (left right : Number) : Bool :=
  match left.place?, right.place? with
  | some x, some y => x.before y
  | _, _ => false

/-- Whether one number is smaller or equal by exact value. -/
def atMost (left right : Number) : Bool :=
  less left right || equals left right

/-- Whether a number is zero, of either kind and sign. -/
def isZero : Number → Bool
  | .int value => value == 0
  | .float value => value.isZero

/-- Whether a number is the undefined one. -/
def isNaN : Number → Bool
  | .int _ => false
  | .float value => value.isNaN

/-- Whether a number is finite and has no part behind the point. -/
def isWhole : Number → Bool
  | .int _ => true
  | .float value => value.isIntegral

/-- The position in a list that a number stands for: a whole one that is not negative. -/
def position? : Number → Option Nat
  | .int value => if 0 ≤ value then some value.toNat else none
  | .float value =>
    if value.isIntegral && 0 ≤ value.truncate then some value.truncate.toNat else none

/-- The opposite number, of the same kind. -/
def neg : Number → Number
  | .int value => .int (-value)
  | .float value => .float value.neg

/-- The text of a number; floats always show that they are floats. -/
def text : Number → String
  | .int value => integerText value
  | .float value => value.text

end Number
end TrialScript
