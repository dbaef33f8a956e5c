import TrialScript.Description.Basic

/-! Merging: one description for a variable that was described more than once. -/

namespace TrialScript.Description

/-- Whether a limit says that exactly one option is taken. -/
def isSingle (limit : Value) : Bool :=
  limit.equals (.int 1)

/-- The smaller of two lower bounds and the larger of two upper ones, which must have an order. -/
def widen (low low' high high' : Value) : Except Fault (Value × Value) :=
  match low.least? low', high.greatest? high' with
  | some least, some greatest => .ok (least, greatest)
  | _, _ => .error .wrongKind

/-- One description of what either of two descriptions describes. -/
def merge (left right : Description) : Except Fault Description :=
  match left, right with
  -- What is unknown adds nothing.
  | .unknown, right => .ok right
  | left, .unknown => .ok left
  -- Equal exact values are one, and others become a choice of one of them.
  | .atom x, .atom y =>
    .ok (if x.sameAtomic y then left else oneOf [left, right])
  -- A choice of one among its options takes an exact value in; a choice of several is kept.
  | .atom _, .select limit options =>
    .ok (if isSingle limit then oneOf (distinct (left :: options)) else unionOf [left, right])
  | .select limit options, .atom _ =>
    .ok (if isSingle limit then oneOf (distinct (options ++ [right])) else unionOf [left, right])
  -- Two ranges of one kind are widened into one.
  | .range kind low high, .range kind' low' high' =>
    if kind = kind' then do
      let (low, high) ← widen low low' high high'
      return .range kind low high
    else .ok (unionOf [left, right])
  -- Two choices of one among their options become such a choice among the options of both.
  | .select limit options, .select limit' options' =>
    .ok (if isSingle limit && isSingle limit' then oneOf (distinct (options ++ options'))
      else unionOf [left, right])
  -- A union takes in anything else as a further variant.
  | .union variants, right =>
    .ok (if right.isStructured then unionOf (variants ++ [right]) else unionOf [left, right])
  | left, right => .ok (unionOf [left, right])

/-- One step of joining: two exact values stay apart, everything else merges. -/
def joinStep (left right : Description) : Except Fault Description :=
  if left.isUnknown || right.isUnknown || left.isStructured || right.isStructured then
    merge left right
  else .ok (unionOf [left, right])

/-- One description of what a variable holds after one of several branches. -/
def join (branches : List Description) : Except Fault Description :=
  branches.foldlM joinStep .unknown

end TrialScript.Description
