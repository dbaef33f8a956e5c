import TrialScript.Proofs.Store.Sorted
import TrialScript.Proofs.Value.Keyed
import TrialScript.Report

/-! Values up to the order of fields: one form for all orders, and texts that do not show it. -/

namespace TrialScript

namespace Value

/-- Values that differ at most in the order in which their mappings name fields, at any depth. -/
inductive Reordered : Value → Value → Prop where
  | scalar (value : Scalar) : Reordered (.scalar value) (.scalar value)
  | list {lefts rights : List Value} (long : lefts.length = rights.length)
      (each : ∀ (place : Nat) (left right : Value), lefts[place]? = some left →
        rights[place]? = some right → Reordered left right) : Reordered (.list lefts) (.list rights)
  | dict {lefts rights : Table Value} (named : ∀ name, lefts.has name = rights.has name)
      (each : ∀ name left right, lefts.lookup? name = some left →
        rights.lookup? name = some right → Reordered left right) :
      Reordered (.dict lefts) (.dict rights)
  | date (day : Date) : Reordered (.date day) (.date day)
  | datetime (moment : DateTime) : Reordered (.datetime moment) (.datetime moment)

mutual

/-- The value with the fields of every mapping in order of name. -/
def ordered : Value → Value
  | .scalar value => .scalar value
  | .list items => .list (orderedItems items)
  | .dict fields => .dict (Table.sortByName (orderedFields fields))
  | .date day => .date day
  | .datetime moment => .datetime moment

/-- The ordered values of items. -/
def orderedItems : List Value → List Value
  | [] => []
  | item :: rest => ordered item :: orderedItems rest

/-- The ordered values of fields. -/
def orderedFields : List (String × Value) → List (String × Value)
  | [] => []
  | (name, value) :: rest => (name, ordered value) :: orderedFields rest

end

section Parts

/-- Ordering a list orders its items. -/
theorem orderedItems_eq_map (items : List Value) : orderedItems items = items.map ordered := by
  induction items with
  | nil => rfl
  | cons item rest ih => rw [orderedItems, List.map_cons, ih]

/-- Ordering fields orders the value of each. -/
theorem orderedFields_eq_mapValues (fields : Table Value) :
    orderedFields fields = fields.mapValues ordered := by
  -- By induction on the fields.
  induction fields with
  | nil => rfl
  | cons field rest ih =>
    rw [orderedFields, ih]
    rfl

/-- A plain list has plain items. -/
theorem plainItems_eq_map (items : List Value) : plainItems items = items.map plain := by
  induction items with
  | nil => rfl
  | cons item rest ih => rw [plainItems, List.map_cons, ih]

/-- Plain fields have plain values. -/
theorem plainFields_eq_mapValues (fields : Table Value) :
    plainFields fields = fields.mapValues plain := by
  -- By induction on the fields.
  induction fields with
  | nil => rfl
  | cons field rest ih =>
    rw [plainFields, ih]
    rfl

/-- An ordered mapping finds the ordered value. -/
theorem lookup?_sorted_orderedFields (name : String) (fields : Table Value) :
    Table.lookup? name (Table.sortByName (orderedFields fields)) =
      (fields.lookup? name).map ordered := by
  rw [Table.lookup?_sortByName, orderedFields_eq_mapValues, Table.lookup?_mapValues]

end Parts

namespace Reordered

variable {left right : Value}

/-- Every value is like itself, whatever the order of its fields. -/
theorem refl (value : Value) : Reordered value value := by
  -- By induction on the value: at one place, or of one name, there is only one part.
  induction value using induction_parts with
  | scalar value => exact .scalar value
  | list items ih =>
    refine .list rfl fun place left right here here' => ?_
    obtain rfl : left = right := Option.some.inj (here.symm.trans here')
    exact ih left (List.mem_of_getElem? here)
  | dict fields ih =>
    refine .dict (fun name => rfl) fun name left right found found' => ?_
    obtain rfl : left = right := Option.some.inj (found.symm.trans found')
    exact ih _ (Table.mem_of_lookup? found)
  | date day => exact .date day
  | datetime moment => exact .datetime moment

/-- Being alike up to the order of fields goes both ways. -/
theorem symm (alike : Reordered left right) : Reordered right left := by
  -- By induction on the likeness, whose cases all read the same from the other side.
  induction alike with
  | scalar value => exact .scalar value
  | list long _ ih =>
    exact .list long.symm fun place left right here here' => ih place right left here' here
  | dict named _ ih =>
    refine .dict (fun name => (named name).symm) fun name left right found found' => ?_
    exact ih name right left found' found
  | date day => exact .date day
  | datetime moment => exact .datetime moment

/-- Being alike up to the order of fields goes on. -/
theorem trans {middle : Value} (first : Reordered left middle) (second : Reordered middle right) :
    Reordered left right := by
  -- The value in the middle has an item at every place, and a field of every name.
  induction first generalizing right with
  | scalar => exact second
  | @list lefts middles long _ ih =>
    cases second with
    | list long' each =>
      refine .list (long.trans long') fun place left right here here' => ?_
      have inside : place < middles.length := by
        have := (List.getElem?_eq_some_iff.mp here).1
        omega
      have between : middles[place]? = some middles[place] := List.getElem?_eq_getElem inside
      exact ih place left _ here between (each place _ right between here')
  | @dict lefts middles named _ ih =>
    cases second with
    | dict named' each =>
      refine .dict (fun name => (named name).trans (named' name)) fun name left right found found' => ?_
      have has : middles.has name = true := by
        rw [← named, Table.has, found]
        rfl
      obtain ⟨between, held⟩ := Option.isSome_iff_exists.mp has
      exact ih name left between found held (each name between right held found')
  | date => exact second
  | datetime => exact second

end Reordered

section Ordered

/-- Putting the fields in order changes nothing but their order. -/
theorem reordered_ordered (value : Value) : Reordered value value.ordered := by
  -- By induction on the value: a place and a name hold the ordered part of what they held.
  induction value using induction_parts with
  | scalar value => exact .scalar value
  | list items ih =>
    rw [ordered, orderedItems_eq_map]
    refine .list (by simp) fun place left right here here' => ?_
    rw [List.getElem?_map, here] at here'
    cases here'
    exact ih left (List.mem_of_getElem? here)
  | dict fields ih =>
    rw [ordered]
    refine .dict (fun name => ?_) fun name left right found found' => ?_
    · rw [Table.has, Table.has, lookup?_sorted_orderedFields, Option.isSome_map]
    · rw [lookup?_sorted_orderedFields, found] at found'
      cases found'
      exact ih _ (Table.mem_of_lookup? found)
  | date day => exact .date day
  | datetime moment => exact .datetime moment

/-- Where a name is in both tables or in neither, the values there are alike in some form. -/
theorem map_lookup?_of_has {α : Type} {form : Value → α} {lefts rights : Table Value} {name : String}
    (named : lefts.has name = rights.has name)
    (each : ∀ left right, lefts.lookup? name = some left → rights.lookup? name = some right →
      form left = form right) :
    (lefts.lookup? name).map form = (rights.lookup? name).map form := by
  -- The two tables have the name together, or neither has it.
  unfold Table.has at named
  cases found : lefts.lookup? name with
  | none =>
    rw [found, Option.isSome_none] at named
    have nothing : rights.lookup? name = none :=
      Option.not_isSome_iff_eq_none.mp fun some => Bool.false_ne_true (named.trans some)
    rw [nothing]
  | some left =>
    rw [found, Option.isSome_some] at named
    obtain ⟨right, found'⟩ := Option.isSome_iff_exists.mp named.symm
    rw [found', Option.map_some, Option.map_some, each left right found found']

/-- Values that differ only in the order of their fields become the same. -/
theorem Reordered.ordered_eq {left right : Value} (alike : Reordered left right)
    (keyed : left.Keyed) (keyed' : right.Keyed) : left.ordered = right.ordered := by
  induction alike with
  | scalar | date | datetime => rfl
  | @list lefts rights long _ ih =>
    cases keyed with
    | list keyedLefts =>
      cases keyed' with
      | list keyedRights =>
        rw [ordered, ordered, orderedItems_eq_map, orderedItems_eq_map]
        -- The lists are compared place by place.
        congr 1
        refine List.ext_getElem (by simpa using long) fun place inside inside' => ?_
        rw [List.getElem_map, List.getElem_map]
        rw [List.length_map] at inside inside'
        exact ih place _ _ (List.getElem?_eq_getElem inside) (List.getElem?_eq_getElem inside')
          (keyedLefts _ (List.getElem_mem inside)) (keyedRights _ (List.getElem_mem inside'))
  | @dict lefts rights named _ ih =>
    cases keyed with
    | dict distinct keyedLefts =>
      cases keyed' with
      | dict distinct' keyedRights =>
        rw [ordered, ordered]
        congr 1
        have kept : ∀ fields : Table Value, Table.names (orderedFields fields) = fields.names := by
          intro fields
          rw [orderedFields_eq_mapValues, Table.names, Table.mapValues, List.map_map]
          rfl
        refine Table.sortByName_eq_of_lookup? ((kept lefts).symm ▸ distinct)
          ((kept rights).symm ▸ distinct') fun name => ?_
        -- Both sides find nothing under a name, or the ordered forms of values that are alike.
        simp only [orderedFields_eq_mapValues, Table.lookup?_mapValues]
        refine map_lookup?_of_has (named name) fun left right found found' => ?_
        exact ih name left right found found' (keyedLefts _ (Table.mem_of_lookup? found))
          (keyedRights _ (Table.mem_of_lookup? found'))

/-- Two values that name every field once differ only in order exactly if they are one in order. -/
theorem reordered_iff {left right : Value} (keyed : left.Keyed) (keyed' : right.Keyed) :
    Reordered left right ↔ left.ordered = right.ordered := by
  refine ⟨fun alike => alike.ordered_eq keyed keyed', fun same => ?_⟩
  have toRight : Reordered left.ordered right := same ▸ (reordered_ordered right).symm
  exact (reordered_ordered left).trans toRight

/-- Fields that are in order stay so, at any depth. -/
theorem ordered_ordered (value : Value) : value.ordered.ordered = value.ordered := by
  induction value using induction_parts with
  | scalar | date | datetime => rfl
  | list items ih =>
    simp only [ordered, orderedItems_eq_map, List.map_map]
    congr 1
    exact List.map_congr_left ih
  | dict fields ih =>
    simp only [ordered, orderedFields_eq_mapValues]
    -- Ordering the values changes none of the names, which are in order already.
    rw [Table.mapValues_sortByName, (Table.sorted_sortByName _).sortByName_eq]
    congr 2
    simp only [Table.mapValues, List.map_map]
    exact List.map_congr_left fun field member => Prod.ext rfl (ih field member)

end Ordered

section Texts

/-- Dates are written as texts before or after the fields are put in order. -/
theorem plain_ordered (value : Value) : value.ordered.plain = value.plain.ordered := by
  -- By induction on the value; writing a date does not touch any name.
  induction value using induction_parts with
  | scalar | date | datetime => rfl
  | list items ih =>
    simp only [ordered, plain, orderedItems_eq_map, plainItems_eq_map, List.map_map]
    congr 1
    exact List.map_congr_left ih
  | dict fields ih =>
    simp only [ordered, plain, orderedFields_eq_mapValues, plainFields_eq_mapValues]
    rw [Table.mapValues_sortByName]
    congr 2
    simp only [Table.mapValues, List.map_map]
    exact List.map_congr_left fun field member => Prod.ext rfl (ih field member)

end Texts

end Value

namespace Json

/-- Items are written one by one, at the same depth. -/
theorem writeItems_eq_map (layout : Layout) (depth : Nat) (items : List Value) :
    writeItems layout depth items = items.map (writeAt layout depth) := by
  induction items with
  | nil => rfl
  | cons item rest ih => rw [writeItems, List.map_cons, ih]

/-- Fields are written one by one, at the same depth. -/
theorem writeFields_eq_mapValues (layout : Layout) (depth : Nat) (fields : Table Value) :
    writeFields layout depth fields = fields.mapValues (writeAt layout depth) := by
  -- By induction on the fields.
  induction fields with
  | nil => rfl
  | cons field rest ih =>
    rw [writeFields, ih]
    rfl

/-- A JSON text does not show in which order the fields came. -/
theorem writeAt_ordered (layout : Layout) (depth : Nat) (value : Value) :
    writeAt layout depth value.ordered = writeAt layout depth value := by
  induction value using Value.induction_parts generalizing depth with
  | scalar | date | datetime => rfl
  | list items ih =>
    simp only [Value.ordered, writeAt, Value.orderedItems_eq_map, writeItems_eq_map, List.map_map]
    congr 1
    exact List.map_congr_left fun item member => ih item member (depth + 1)
  | dict fields ih =>
    simp only [Value.ordered, writeAt, Value.orderedFields_eq_mapValues, writeFields_eq_mapValues]
    -- The texts of the values are put in order by the same names once more.
    rw [Table.mapValues_sortByName, (Table.sorted_sortByName _).sortByName_eq]
    congr 3
    simp only [Table.mapValues, List.map_map]
    exact List.map_congr_left fun field member => Prod.ext rfl (ih field member (depth + 1))

end Json

/-- A canonical text does not show in which order the fields came. -/
theorem canonicalText_ordered (value : Value) : canonicalText value.ordered = canonicalText value := by
  rw [canonicalText, canonicalText, Value.plain_ordered]
  exact Json.writeAt_ordered _ _ _

namespace Salt

/-- The components of a salt do not show in which order the fields of its mappings came. -/
theorem texts_ordered (salt : Value) : texts salt.ordered = texts salt := by
  induction salt using Value.induction_parts with
  | scalar | date | datetime => rfl
  | list items ih =>
    have opened : ∀ items : List Value,
        (flattenItems items).map componentText = items.flatMap texts := by
      intro items
      induction items with
      | nil => rfl
      | cons item rest ih =>
        rw [flattenItems, List.map_append, ih, List.flatMap_cons]
        rfl
    -- Only a list has several components, and they are those of its items.
    simp only [texts, Value.ordered, flatten] at *
    rw [opened, opened, Value.orderedItems_eq_map, List.flatMap_map]
    exact congrArg List.flatten (List.map_congr_left ih)
  | dict fields =>
    -- A mapping is a component, written as JSON.
    exact congrArg (fun text => [text]) (Json.writeAt_ordered .compact 0 (.dict fields))

end Salt
end TrialScript
