import TrialScript.Description.Basic
import TrialScript.Value.Arithmetic

/-! Calculating with descriptions: bounds with bounds, and options one by one. -/

namespace TrialScript

namespace Description

/-- The kind of a range whose bounds come from two ranges. -/
def mixedKind (left right : RangeKind) : RangeKind :=
  if left = .integer ∧ right = .integer then .integer else .float

/-- Whether a calculation can say anything about a description. -/
def isOperand (operand : Description) : Bool :=
  operand.isStructured || operand.number?.isSome

mutual

/-- Applies a function to a number or a range on the left. -/
def combineSimple (function : Arithmetic) (left : Description) :
    Description → Except Fault Description
  -- A number acts on the other number, or on both ends of the other range.
  | .atom y =>
    match left, y.number? with
    | .atom x, some number => do return .atom (← function.onValues x (.num number))
    | .range kind low high, some number => do
      let low ← function.onValues low (.num number)
      return .range kind low (← function.onValues high (.num number))
    | _, _ => .ok .unknown
  -- Two ranges are calculated with end by end, also where that turns them around.
  | .range kind low' high' =>
    match left with
    | .atom x => do
      let low ← function.onValues x low'
      return .range kind low (← function.onValues x high')
    | .range kind' low high => do
      let least ← function.onValues low low'
      return .range (mixedKind kind' kind) least (← function.onValues high high')
    | _ => .ok .unknown
  -- Each option is an operand of its own.
  | .select limit options => do return .select limit (← combineOptions function left options)
  | _ => .ok .unknown

/-- Applies a function to a number or a range and every option on the right. -/
def combineOptions (function : Arithmetic) (left : Description) :
    List Description → Except Fault (List Description)
  | [] => .ok []
  | option :: rest => do
    return (← combineSimple function left option) :: (← combineOptions function left rest)

end

mutual

/-- Applies a function to what two descriptions describe, unknown where nothing can be said. -/
def combine (function : Arithmetic) : Description → Description → Except Fault Description
  -- The options on the left are looked at only if the right side is an operand at all.
  | .select limit options, right =>
    if right.isOperand then do
      return .select limit (← combineEach function options right)
    else .ok .unknown
  | .atom value, right =>
    if (Description.atom value).isOperand then combineSimple function (.atom value) right
    else .ok .unknown
  | .range kind low high, right => combineSimple function (.range kind low high) right
  | _, _ => .ok .unknown

/-- Applies a function to every option on the left. -/
def combineEach (function : Arithmetic) :
    List Description → Description → Except Fault (List Description)
  | [], _ => .ok []
  | option :: rest, right => do
    return (← combine function option right) :: (← combineEach function rest right)

end

mutual

/-- Rounds what a description describes to integers. -/
def round : Description → Except Fault Description
  | .atom value =>
    match value.number? with
    | some number => do return .atom (.num (← number.roundHalfAway))
    | none => .ok (.atom value)
  -- A range of integers has nothing to round.
  | .range .integer low high => .ok (.range .integer low high)
  -- A rounded range of floats is one of integers.
  | .range .float low high => do
    let low ← low.roundHalfAway
    return .range .integer low (← high.roundHalfAway)
  | .select limit options => do return .select limit (← roundItems options)
  | .union variants => do return unionOf (← roundItems variants)
  | other => .ok other

/-- Rounds what every description of a list describes. -/
def roundItems : List Description → Except Fault (List Description)
  | [] => .ok []
  | item :: rest => do return (← round item) :: (← roundItems rest)

end

end Description
end TrialScript
