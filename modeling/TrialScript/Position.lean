import TrialScript.Fault

/-! Elements of lists by position, where positions below zero count from the end. -/

namespace TrialScript

variable {α : Type}

/-- The place in a list of a given size that a position stands for. -/
def placeOf (size : Nat) (position : Int) : Except Fault Nat :=
  let place := if position < 0 then position + size else position
  if 0 ≤ place ∧ place < size then .ok place.toNat else .error .noItem

/-- The element at a position. -/
def elementAt (items : List α) (position : Int) : Except Fault α := do
  match items[← placeOf items.length position]? with
  | some item => return item
  | none => throw .noItem

/-- The list with the element at a position replaced. -/
def replaceAt (items : List α) (position : Int) (item : α) : Except Fault (List α) := do
  return items.set (← placeOf items.length position) item

end TrialScript
