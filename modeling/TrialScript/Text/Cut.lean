import TrialScript.Fault

/-! Cutting a text at a position counted from either end. -/

namespace TrialScript

/-- The beginning of a text up to a position, a negative one counting from the end. -/
def cutAt {α : Type} (position : Int) (text : List α) : List α :=
  if 0 ≤ position then text.take position.toNat else text.take (text.length - position.natAbs)

/-- The beginning of a text up to a position given as a value, where null keeps all of it. -/
def cutBy {α : Type} (position : Value) (text : List α) : Except Fault (List α) :=
  match position with
  | .null => .ok text
  | .bool value => .ok (cutAt (if value then 1 else 0) text)
  | .int position => .ok (cutAt position text)
  | _ => .error .wrongKind

end TrialScript
