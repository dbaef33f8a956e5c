import TrialScript.Fault

/-! Repeating a text or a list, and the lengths that no memory holds. -/

namespace TrialScript

/-- The largest number that can count parts. -/
def mostCounted : Nat := 2 ^ 63 - 1

/-- The longest run that is put together. -/
def mostHeld : Nat := 2 ^ 32

/-- A count of repetitions, where a negative one counts as zero; larger numbers do not count. -/
def repetitions (count : Int) : Except Fault Nat :=
  if -(mostCounted : Int) - 1 ≤ count ∧ count ≤ mostCounted then .ok count.toNat
  else .error .overflow

/-- A run of items as often as a count says, in order. -/
def repeatItems {α : Type} (count : Int) (items : List α) : Except Fault (List α) := do
  let times ← repetitions count
  -- Nothing repeated is nothing, however often.
  if items.isEmpty then return []
  if mostHeld < times * items.length then throw .noRoom
  return (List.replicate times items).flatten

/-- A text as often as a count says, whose length must still be a number that can count. -/
def repeatText (count : Int) (text : String) : Except Fault String := do
  let times ← repetitions count
  if mostCounted < times * text.length then throw .overflow
  return String.ofList (← repeatItems count text.toList)

end TrialScript
