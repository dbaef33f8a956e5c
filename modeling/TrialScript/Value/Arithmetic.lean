import TrialScript.Numeric.Arithmetic
import TrialScript.Text.Repeat
import TrialScript.Value.Order

/-! Truth and arithmetic of any values: truth values count as one and zero, texts and lists join. -/

namespace TrialScript

/-- Whether a value counts as true: lists, mappings and calendar values always do. -/
def Value.truthy : Value → Except Fault Bool
  | .null => .ok false
  | .bool value => .ok value
  | .num value => value.truthy
  | .str value => .ok (!value.isEmpty)
  | _ => .ok true

/-- The nearest integer to a value that counts as a number. -/
def Value.roundHalfAway (value : Value) : Except Fault Value :=
  match value.quantity? with
  | some number => do return .num (← number.roundHalfAway)
  | none => .error .wrongKind

namespace Value

/-- The integer that a value counts as, where truth is one and falsehood zero. -/
def count? (value : Value) : Option Int :=
  match value.quantity? with
  | some (.int count) => some count
  | _ => none

/-- Applies a function of numbers to two values that count as numbers. -/
def calculate (function : Number → Number → Except Fault Number) (left right : Value) :
    Except Fault Value :=
  match left.quantity?, right.quantity? with
  | some x, some y => do return .num (← function x y)
  | _, _ => .error .wrongKind

/-- The sum of two numbers, or two texts or two lists one after the other. -/
def add : Value → Value → Except Fault Value
  | .str left, .str right => .ok (.str (left ++ right))
  | .list left, .list right => .ok (.list (left ++ right))
  | left, right => calculate Number.add left right

/-- A text or a list as often as an integer says. -/
def repeatBy (count : Value) : Value → Except Fault Value
  | .str text =>
    match count.count? with
    | some times => do return .str (← repeatText times text)
    | none => .error .wrongKind
  | .list items =>
    match count.count? with
    | some times => do return .list (← repeatItems times items)
    | none => .error .wrongKind
  | _ => .error .wrongKind

/-- The product of two numbers, or a text or a list as often as an integer on either side says. -/
def multiply (left right : Value) : Except Fault Value :=
  match left, right with
  | .str _, count | .list _, count => repeatBy count left
  | count, .str _ | count, .list _ => repeatBy count right
  | left, right => calculate Number.mul left right

/-- The remainder of two numbers; over zero the dividend is not looked at. -/
def remainder (left right : Value) : Except Fault Value :=
  match left.quantity?, right.quantity? with
  | some x, some y => do return .num (← x.remainder y)
  | none, some y => if y.isZero then .ok (.float .nan) else .error .wrongKind
  | some x, none => do
    -- The dividend is converted before the divisor is looked at.
    discard x.toFloat
    throw .wrongKind
  | none, none => .error .wrongKind

/-- What depends on the order of two values, which they may not have. -/
def whenOrdered {α : Type} : Option α → Except Fault α
  | some found => .ok found
  | none => .error .wrongKind

end Value

/-- Applies a function to two values of any kind that it is defined for. -/
def Arithmetic.onValues (function : Arithmetic) (left right : Value) : Except Fault Value :=
  match function with
  | .add => left.add right
  | .subtract => Value.calculate Number.sub left right
  | .multiply => left.multiply right
  | .divide => Value.calculate Number.divide left right
  | .remainder => left.remainder right
  | .least => Value.whenOrdered (left.least? right)
  | .greatest => Value.whenOrdered (left.greatest? right)

end TrialScript
