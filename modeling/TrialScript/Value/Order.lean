import TrialScript.Value.Basic

/-! Equality and order of values: numbers compare by exact value, mappings without order. -/

namespace TrialScript

/-- Plain equality, under which truth equals one and the kinds of numbers do not matter. -/
def Scalar.equals : Scalar → Scalar → Bool
  | .null, .null => true
  | .str left, .str right => left == right
  | left, right =>
    match left.quantity?, right.quantity? with
    | some x, some y => x.equals y
    | _, _ => false

namespace Value

mutual

/-- Plain equality, which passes through lists and mappings to their scalars. -/
def equals : Value → Value → Bool
  | .scalar left, .scalar right => left.equals right
  | .list left, .list right => equalsItems left right
  | .dict left, .dict right => left.length == right.length && equalsFields left right
  | .date left, .date right => left == right
  | .datetime left, .datetime right => left.same right
  | _, _ => false

/-- Plain equality of lists, item by item. -/
def equalsItems : List Value → List Value → Bool
  | [], [] => true
  | left :: lefts, right :: rights => equals left right && equalsItems lefts rights
  | _, _ => false

/-- Whether every field on the left has an equal field of the same name on the right. -/
def equalsFields : List (String × Value) → List (String × Value) → Bool
  | [], _ => true
  | (name, left) :: rest, others =>
    match Table.lookup? name others with
    | some right => equals left right && equalsFields rest others
    | none => false

end

/-- Strict equality at the top: a truth value equals only a truth value. -/
def sameAtomic : Value → Value → Bool
  | .bool left, .bool right => left == right
  | .bool _, _ => false
  | _, .bool _ => false
  | left, right => equals left right

/-- Whether values are of kinds that can be ordered: numbers, texts, days or any two moments. -/
def comparable : Value → Value → Bool
  | .str _, .str _ => true
  | .date _, .date _ => true
  | .datetime _, .datetime _ => true
  | left, right => left.quantity?.isSome && right.quantity?.isSome

mutual

/-- Whether one value comes strictly before another, for two values that have an order. -/
def before? : Value → Value → Option Bool
  | .str left, .str right => some (decide (left < right))
  | .date left, .date right => some (left.before right)
  | .datetime left, .datetime right => left.before? right
  | .list left, .list right => itemsBefore? left right
  | left, right =>
    match left.quantity?, right.quantity? with
    | some x, some y => some (x.less y)
    | _, _ => none

/-- Whether one list comes before another: their first difference decides, or else the length. -/
def itemsBefore? : List Value → List Value → Option Bool
  | _, [] => some false
  | [], _ :: _ => some true
  | left :: lefts, right :: rights =>
    if equals left right then itemsBefore? lefts rights else before? left right

end

/-- Whether one comparable value comes strictly before another. -/
def less (left right : Value) : Bool :=
  (before? left right).getD false

/-- Whether one comparable value comes before another or equals it. -/
def atMost (left right : Value) : Bool :=
  less left right || equals left right

/-- The first value, unless the second comes strictly before it. -/
def least? (left right : Value) : Option Value :=
  (before? right left).map fun smaller => if smaller then right else left

/-- The first value, unless it comes strictly before the second. -/
def greatest? (left right : Value) : Option Value :=
  (before? left right).map fun smaller => if smaller then right else left

/-- Whether one run of characters occurs in another. -/
def occursIn (part : List Char) : List Char → Bool
  | [] => part.isEmpty
  | c :: rest => part.isPrefixOf (c :: rest) || occursIn part rest

/-- Whether a list has an equal item or a text has a part; other values hold nothing. -/
def holds? (collection item : Value) : Option Bool :=
  match collection, item with
  | .list items, item => some (items.any fun other => equals other item)
  | .str text, .str part => some (occursIn part.toList text.toList)
  | _, _ => none

end Value
end TrialScript
