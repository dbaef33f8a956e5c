import TrialScript.Calendar
import TrialScript.Numeric.Number
import TrialScript.Table

/-! Values that scripts compute with: scalars, lists, mappings and calendar values. -/

namespace TrialScript

/-- A value without parts. -/
inductive Scalar where
  | null
  | bool (value : Bool)
  | num (value : Number)
  | str (value : String)
deriving DecidableEq

/-- The number that a scalar counts as, where truth is one and falsehood zero. -/
def Scalar.quantity? : Scalar → Option Number
  | .num value => some value
  | .bool value => some (.int (if value then 1 else 0))
  | _ => none

/--
A value; the fields of a mapping keep the order in which they came.

A value has no identity besides its parts: an undefined number inside a list equals no other one,
even where the same object was put into both lists.
-/
inductive Value where
  | scalar (value : Scalar)
  | list (items : List Value)
  | dict (fields : List (String × Value))
  | date (value : Date)
  | datetime (value : DateTime)

namespace Value

/-- The absent value. -/
@[match_pattern] abbrev null : Value := .scalar .null

/-- A truth value. -/
@[match_pattern] abbrev bool (value : Bool) : Value := .scalar (.bool value)

/-- A number of either kind. -/
@[match_pattern] abbrev num (value : Number) : Value := .scalar (.num value)

/-- An integer. -/
@[match_pattern] abbrev int (value : Int) : Value := .scalar (.num (.int value))

/-- A binary64 number. -/
@[match_pattern] abbrev float (value : Binary64) : Value := .scalar (.num (.float value))

/-- A text. -/
@[match_pattern] abbrev str (value : String) : Value := .scalar (.str value)

instance : Inhabited Value := ⟨null⟩

mutual

/-- Decides whether two values are written alike, part by part. -/
def decEq : (left right : Value) → Decidable (left = right)
  | .scalar x, .scalar y => if h : x = y then isTrue (by rw [h]) else isFalse (by simp [h])
  | .list xs, .list ys =>
    match decEqItems xs ys with
    | isTrue h => isTrue (by rw [h])
    | isFalse h => isFalse (by simp [h])
  | .dict xs, .dict ys =>
    match decEqFields xs ys with
    | isTrue h => isTrue (by rw [h])
    | isFalse h => isFalse (by simp [h])
  | .date x, .date y => if h : x = y then isTrue (by rw [h]) else isFalse (by simp [h])
  | .datetime x, .datetime y => if h : x = y then isTrue (by rw [h]) else isFalse (by simp [h])
  | .scalar _, .list _ | .scalar _, .dict _ | .scalar _, .date _ | .scalar _, .datetime _
  | .list _, .scalar _ | .list _, .dict _ | .list _, .date _ | .list _, .datetime _
  | .dict _, .scalar _ | .dict _, .list _ | .dict _, .date _ | .dict _, .datetime _
  | .date _, .scalar _ | .date _, .list _ | .date _, .dict _ | .date _, .datetime _
  | .datetime _, .scalar _ | .datetime _, .list _ | .datetime _, .dict _ | .datetime _, .date _ =>
    isFalse (by simp)

/-- Decides whether two lists of values are written alike. -/
def decEqItems : (left right : List Value) → Decidable (left = right)
  | [], [] => isTrue rfl
  | [], _ :: _ | _ :: _, [] => isFalse (by simp)
  | x :: xs, y :: ys =>
    match decEq x y, decEqItems xs ys with
    | isTrue hx, isTrue hxs => isTrue (by rw [hx, hxs])
    | isFalse hx, _ => isFalse (by simp [hx])
    | _, isFalse hxs => isFalse (by simp [hxs])

/-- Decides whether two runs of fields are written alike. -/
def decEqFields : (left right : List (String × Value)) → Decidable (left = right)
  | [], [] => isTrue rfl
  | [], _ :: _ | _ :: _, [] => isFalse (by simp)
  | (j, x) :: xs, (k, y) :: ys =>
    match (inferInstance : Decidable (j = k)), decEq x y, decEqFields xs ys with
    | isTrue hj, isTrue hx, isTrue hxs => isTrue (by rw [hj, hx, hxs])
    | isFalse hj, _, _ => isFalse (by simp [hj])
    | _, isFalse hx, _ => isFalse (by simp [hx])
    | _, _, isFalse hxs => isFalse (by simp [hxs])

end

instance : DecidableEq Value := decEq

/-- The number that a value is; truth values are not numbers. -/
def number? : Value → Option Number
  | .num value => some value
  | _ => none

/-- The number that a value counts as, where truth is one and falsehood zero. -/
def quantity? : Value → Option Number
  | .scalar value => value.quantity?
  | _ => none

/-- The items of a list. -/
def items? : Value → Option (List Value)
  | .list items => some items
  | _ => none

/-- The items of a list, the characters of a text, or the names of a mapping. -/
def elements? : Value → Option (List Value)
  | .list items => some items
  | .str text => some (text.toList.map fun c => str (String.singleton c))
  | .dict fields => some (fields.map fun field => str field.1)
  | _ => none

end Value
end TrialScript
