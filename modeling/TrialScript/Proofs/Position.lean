import TrialScript.Position

/-! Elements by position: what is at a place inside a list, and what is at its end. -/

namespace TrialScript

variable {α : Type} {items : List α}

/-- A natural number inside a list is the place of an element. -/
theorem placeOf_natCast {size place : Nat} (inside : place < size) :
    placeOf size place = .ok place := by
  have nonneg : ¬ ((place : Int) < 0) := by omega
  simp [placeOf, nonneg, inside]

/-- The element at a place inside a list. -/
theorem elementAt_natCast {place : Nat} (inside : place < items.length) :
    elementAt items place = .ok items[place] := by
  simp [elementAt, placeOf_natCast inside, List.getElem?_eq_getElem inside, bind, Except.bind,
    pure, Except.pure]

/-- The first position below zero is the last place, if there is one. -/
theorem placeOf_last (size : Nat) : placeOf (size + 1) (-1) = .ok size := by
  have last : (-1 : Int) + (size + 1 : Nat) = size := by omega
  simp only [placeOf, show (-1 : Int) < 0 by decide, if_true, last]
  rw [if_pos (by omega), Int.toNat_natCast]

/-- The element at the first position below zero is the last one, which only an empty list lacks. -/
theorem elementAt_last : elementAt items (-1) =
    match items.getLast? with
    | some item => .ok item
    | none => .error .noItem := by
  -- Counted from the end, the position is one less than the length.
  cases items with
  | nil => rfl
  | cons first rest =>
    simp [elementAt, placeOf_last, List.getLast?_eq_getElem?, bind, Except.bind, pure, Except.pure]

/-- Replacing the element at a place inside a list. -/
theorem replaceAt_natCast {place : Nat} (inside : place < items.length) (item : α) :
    replaceAt items place item = .ok (items.set place item) := by
  simp [replaceAt, placeOf_natCast inside, bind, Except.bind, pure, Except.pure]

end TrialScript
