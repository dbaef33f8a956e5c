import TrialScript.Tree.Problem

/-! Places inside a value: what stands at a place, and the value with something else there. -/

namespace TrialScript.Value

/-- What stands at a place inside a value, if the place is there. -/
def part? : Value → List Segment → Option Value
  | value, [] => some value
  | .list items, .item index :: path => items[index]?.bind fun item => part? item path
  | .dict fields, .field key :: path =>
    (Table.lookup? key fields).bind fun value => part? value path
  | _, _ => none

/-- The value with something else at a place, if the place is there. -/
def withPart : Value → List Segment → Value → Value
  | _, [], part => part
  | .list items, .item index :: path, part =>
    match items[index]? with
    | some item => .list (items.set index (withPart item path part))
    | none => .list items
  | .dict fields, .field key :: path, part =>
    match Table.lookup? key fields with
    | some value => .dict (Table.put key (withPart value path part) fields)
    | none => .dict fields
  | value, _, _ => value

section Steps

variable {items : List Value} {fields : Table Value} {index : Nat} {key : String}
  {value : Value} {path : List Segment}

/-- The empty path leads to the value itself. -/
@[simp] theorem part?_nil (value : Value) : value.part? [] = some value := by
  cases value <;> rfl

/-- What stands in an item of a list stands in the list. -/
theorem part?_item (found : items[index]? = some value) :
    (list items).part? (.item index :: path) = value.part? path := by
  rw [part?, found, Option.bind_some]

/-- What stands in a field of a mapping stands in the mapping. -/
theorem part?_field (found : fields.lookup? key = some value) :
    (dict fields).part? (.field key :: path) = value.part? path := by
  rw [part?, found, Option.bind_some]

/-- A part at the empty path replaces the value. -/
@[simp] theorem withPart_nil (value part : Value) : value.withPart [] part = part := by
  cases value <;> rfl

/-- Something else in an item of a list is another item in the list. -/
theorem withPart_item (found : items[index]? = some value) (part : Value) :
    (list items).withPart (.item index :: path) part =
      .list (items.set index (value.withPart path part)) := by
  simp only [withPart, found]

/-- Something else in a field of a mapping is another value of the field. -/
theorem withPart_field (found : fields.lookup? key = some value) (part : Value) :
    (dict fields).withPart (.field key :: path) part =
      .dict (fields.put key (value.withPart path part)) := by
  simp only [withPart, found]

end Steps

/-- Something else at a place inside a part is another part. -/
theorem withPart_append {value inside : Value} {outer : List Segment}
    (stands : value.part? outer = some inside) (inner : List Segment) (part : Value) :
    value.withPart (outer ++ inner) part = value.withPart outer (inside.withPart inner part) := by
  -- The induction is on the place of the part, and each step leads into an item or a field.
  induction outer generalizing value with
  | nil =>
    rw [part?_nil, Option.some.injEq] at stands
    rw [stands, List.nil_append, withPart_nil]
  | cons segment outer ih =>
    rw [List.cons_append]
    cases value with
    | list items =>
      cases segment with
      | item index =>
        obtain ⟨item, found, stands⟩ := Option.bind_eq_some_iff.mp stands
        rw [withPart_item found, withPart_item found, ih stands]
      | field key => cases stands
    | dict fields =>
      cases segment with
      | item index => cases stands
      | field key =>
        obtain ⟨held, found, stands⟩ := Option.bind_eq_some_iff.mp stands
        rw [withPart_field found, withPart_field found, ih stands]
    | scalar | date | datetime => simp only [part?, reduceCtorEq] at stands

end TrialScript.Value
