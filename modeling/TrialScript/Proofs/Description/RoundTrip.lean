import TrialScript.Proofs.Description.Normal
import TrialScript.Proofs.Store

/-! Wire shapes: what is read is in normal form, and what is in normal form is read back as it was. -/

namespace TrialScript.Description

section Lists

/-- Listed shapes are read one by one. -/
theorem readItems_eq_mapM (items : List Value) : readItems items = items.mapM read := by
  induction items with
  | nil => rfl
  | cons item rest ih => rw [readItems, List.mapM_cons, ih]

/-- Descriptions are written one by one. -/
theorem toValues_eq_map (items : List Description) : toValues items = items.map toValue := by
  induction items with
  | nil => rfl
  | cons item rest ih => rw [toValues, List.map_cons, ih]

/-- The descriptions that a shape lists: those of its items, or its characters or names. -/
def readListed (shape : Value) : Except Fault (List Description) :=
  match shape with
  | .list items => items.mapM read
  | other =>
    match other.elements? with
    | some elements => .ok (elements.map .atom)
    | none => .error .wrongKind

/-- What a field lists is read from the entry of its name, which must be there. -/
theorem readField_eq (name : String) (fields : Table Value) :
    readField name fields = (fields.lookup? name).elim (.error (.noEntry name)) readListed := by
  refine Table.eq_elim_lookup? rfl (fun key value rest => ?_) fields
  -- A list is read item by item, and everything else in the same way on both sides.
  cases value with
  | list items => rw [readField, readListed, readItems_eq_mapM]
  | _ =>
    rw [readField]
    · rfl
    · simp

/-- Descriptions that are read back one by one are read back as a list. -/
theorem mapM_read_toValue {items : List Description}
    (each : ∀ item ∈ items, read item.toValue = .ok item) :
    (items.map toValue).mapM read = .ok items := by
  -- The induction is on the descriptions, each of which comes back in its place.
  induction items with
  | nil => rfl
  | cons item rest ih =>
    obtain ⟨here, others⟩ := List.forall_mem_cons.mp each
    rw [List.map_cons, List.mapM_cons, here, ih others]
    rfl

end Lists

/-- A description in normal form is read back from its wire shape as it was. -/
theorem read_toValue {description : Description} (normal : description.Normal) :
    read description.toValue = .ok description := by
  -- Each wire shape names its type, under which its parts are read back first.
  induction normal with
  | atom atomic =>
    next value =>
    cases value with
    | scalar | date | datetime => rfl
    | list | dict => exact atomic.elim
  | @range kind low high _ => cases kind <;> rfl
  | select _ _ ih =>
    simp only [toValue, toValues_eq_map, read, Table.lookup?, readField_eq, required, reduceIte,
      String.reduceEq, Option.elim, readListed, mapM_read_toValue ih]
    rfl
  | array _ _ ih =>
    simp only [toValue, toValues_eq_map, read, Table.lookup?, readField_eq, reduceIte,
      String.reduceEq, Option.elim, readListed, mapM_read_toValue ih]
    rfl
  | object => rfl
  | union separate _ ih =>
    -- Variants in normal form are neither opened nor dropped when their union is made again.
    simp only [toValue, toValues_eq_map, read, Table.lookup?, readField_eq, reduceIte,
      String.reduceEq, Option.elim, readListed, mapM_read_toValue ih]
    exact congrArg Except.ok (unionOf_of_separate separate)

section Reading

/-- The entries of a mapping that names every field once do so too. -/
theorem gives_required {name : String} {fields : Table Value}
    (each : ∀ field ∈ fields, field.2.Keyed) : Gives Value.Keyed (required name fields) := by
  unfold required
  split
  · next found => exact .ok (each _ (Table.mem_of_lookup? found))
  · exact .error _

/-- A field lists sound descriptions if its entry does. -/
theorem gives_readField {name : String} {fields : Table Value}
    (each : ∀ field ∈ fields, Gives Sound (read field.2)) :
    Gives (fun listed => ∀ item ∈ listed, item.Sound) (readField name fields) := by
  rw [readField_eq]
  -- A missing field is refused, and so is one that has no members.
  cases found : fields.lookup? name with
  | none => exact .error _
  | some shape =>
    have sound : Gives Sound (read shape) := each _ (Table.mem_of_lookup? found)
    cases shape with
    | list items =>
      -- The list on its own would be read as one description of the same items.
      intro listed gave
      rw [read, readItems_eq_mapM] at sound
      have gave : items.mapM read = .ok listed := gave
      rw [gave] at sound
      exact sound_array.mp (sound _ rfl)
    -- The characters of a text, like the names of a mapping, are exact values.
    | scalar value =>
      cases value with
      | str text =>
        refine .ok ?_
        simp only [List.forall_mem_map]
        exact fun character _ => sound_atom trivial
      | _ => exact .error _
    | dict inner =>
      refine .ok ?_
      simp only [List.forall_mem_map]
      exact fun field _ => sound_atom trivial
    | date | datetime => exact .error _

/-- Whatever a shape reads as is sound, if its mappings name every field once. -/
theorem gives_read {shape : Value} (keyed : shape.Keyed) : Gives Sound (read shape) := by
  -- The induction is on the shape, whose type decides what is read from its fields.
  induction keyed with
  | scalar | date | datetime => exact .ok (sound_atom trivial)
  | list _ ih =>
    rw [read, readItems_eq_mapM]
    exact .bind (.mapM ih) fun items each => .ok (sound_array.mpr each)
  | dict distinct each ih =>
    -- A mapping without a known type is an exact mapping of its own.
    have itself := Value.Keyed.dict distinct each
    rw [read]
    split
    · exact .bind (gives_required each) fun limit keyed =>
        .bind (gives_readField ih) fun options each => .ok (sound_select.mpr ⟨keyed, each⟩)
    · exact .bind (gives_readField ih) fun items each => .ok (sound_array.mpr each)
    · exact .bind (gives_required each) fun value keyed => .ok ⟨.object trivial, .object keyed⟩
    · exact .bind (gives_readField ih) fun variants each => .ok (sound_unionOf each)
    · split
      · exact .bind (gives_required each) fun low keyedLow =>
          .bind (gives_required each) fun high keyedHigh =>
            .ok (sound_range.mpr ⟨keyedLow, keyedHigh⟩)
      · exact .ok ⟨.object trivial, .object itself⟩
    · exact .ok ⟨.object trivial, .object itself⟩

/--
Wire shapes round-trip.

A description in normal form is read back from its wire shape as it was.
Every shape that can be read gives such a description.
-/
theorem normal_roundTrip :
    (∀ description : Description, description.Normal →
      read description.toValue = .ok description) ∧
      ∀ (shape : Value) (description : Description), shape.Keyed →
        read shape = .ok description →
          description.Normal ∧ read description.toValue = .ok description := by
  refine ⟨fun description => read_toValue, fun shape description keyed gave => ?_⟩
  have normal : description.Normal := (gives_read keyed description gave).1
  exact ⟨normal, read_toValue normal⟩

/-- A union in a union is opened, its repetitions are dropped, and the rest comes back as it was. -/
theorem normal_roundTrip_nested :
    let listed : Value := .dict [("type", .str "array"), ("values", .list [.str "ab", .null])]
    let inner : Value := .dict [("type", .str "union"), ("variants", .list [.str "a", .null, listed])]
    let shape : Value := .dict [("type", .str "union"),
      ("variants", .list [inner, .list [.str "ab", .null], .dict [("type", .str "other")], .str "a"])]
    let description : Description := .union [.atom (.str "a"), .array [.atom (.str "ab"), .unknown],
      .object (.dict [("type", .str "other")])]
    shape.Keyed ∧ read shape = .ok description ∧ description.Normal ∧
      read description.toValue = .ok description := by
  intro listed inner shape description
  -- No mapping of the shape names a field twice.
  have keyedPair : (Value.list [.str "ab", .null]).Keyed := .list (by simp [Value.Keyed.scalar])
  have keyedListed : listed.Keyed := .dict (by decide) (by simp [Value.Keyed.scalar, keyedPair])
  have keyedInner : inner.Keyed :=
    .dict (by decide) (by simp [Value.Keyed.scalar, Value.Keyed.list, keyedListed])
  have keyedOther : (Value.dict [("type", .str "other")]).Keyed :=
    .dict (by decide) (by simp [Value.Keyed.scalar])
  have keyed : shape.Keyed := .dict (by decide)
    (by simp [Value.Keyed.scalar, Value.Keyed.list, keyedInner, keyedPair, keyedOther])
  have gave : read shape = .ok description := rfl
  obtain ⟨normal, -⟩ := normal_roundTrip.2 shape description keyed gave
  exact ⟨keyed, gave, normal, normal_roundTrip.1 description normal⟩

end Reading
end TrialScript.Description
