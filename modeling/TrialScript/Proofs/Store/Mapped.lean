import TrialScript.Store

/-! Mapped stores: the same names in the same layers, with a function applied to every value. -/

namespace TrialScript

variable {α β : Type} (f : α → β)

namespace Table

/-- The same names in the same order, with a function applied to every entry. -/
def mapValues (table : Table α) : Table β :=
  table.map fun entry => (entry.1, f entry.2)

/-- A mapped table finds the mapped entry. -/
theorem lookup?_mapValues (name : String) (table : Table α) :
    (table.mapValues f).lookup? name = (table.lookup? name).map f := by
  -- Both searches stop at the same entry.
  induction table with
  | nil => rfl
  | cons entry rest ih =>
    obtain ⟨key, value⟩ := entry
    by_cases same : key = name <;> simp [mapValues, lookup?, same]
    exact ih

/-- Mapping a put puts the mapped value. -/
theorem mapValues_put (name : String) (value : α) (table : Table α) :
    (put name value table).mapValues f = put name (f value) (table.mapValues f) := by
  -- By induction on the table, up to the entry that has the name.
  induction table with
  | nil => rfl
  | cons entry rest ih =>
    obtain ⟨key, old⟩ := entry
    by_cases same : key = name <;> simp [mapValues, put, same]
    exact ih

/-- Mapping leaves a removed name out. -/
theorem mapValues_without (name : String) (table : Table α) :
    (without name table).mapValues f = without name (table.mapValues f) := by
  simp only [mapValues, without, List.filter_map]
  rfl

end Table

/-- The base whose values are those of another one with a function applied. -/
def Base.map : Base α → Base β
  | .empty => .empty
  | .mapping entries => .mapping (entries.mapValues f)
  | .computed find => .computed fun name => (find name).map f

/-- A mapped base finds the mapped value. -/
theorem Base.lookup_map (name : String) (base : Base α) :
    (base.map f).lookup name = (base.lookup name).map f := by
  cases base with
  | empty => rfl
  | mapping entries => exact Table.lookup?_mapValues f name entries
  | computed find => rfl

namespace Store

/-- The store whose values are those of another one with a function applied, layer by layer. -/
def map : Store α → Store β
  | .over base layer => .over (base.map f) (layer.mapValues (Option.map f))
  | .child parent layer => .child parent.map (layer.mapValues (Option.map f))

/-- A mapped store finds the mapped value. -/
theorem lookup_map (name : String) (store : Store α) :
    (store.map f).lookup name = (store.lookup name).map f := by
  -- The search stops in the same layer, at a value or at a cleared name.
  induction store with
  | «over» base layer =>
    rw [map, lookup, lookup, Table.lookup?_mapValues, Base.lookup_map]
    cases Table.lookup? name layer <;> rfl
  | child parent layer ih =>
    rw [map, lookup, lookup, Table.lookup?_mapValues, ih]
    cases Table.lookup? name layer <;> rfl

/-- A mapped store gives the mapped value, with the mapped default where there is none. -/
theorem get_map (store : Store α) (name : String) (default : α) :
    (store.map f).get name (f default) = f (store.get name default) := by
  rw [get, get, lookup_map, Option.getD_map]

/-- Mapping an assignment assigns the mapped value. -/
theorem map_assign (store : Store α) (name : String) (value : α) :
    (store.assign name value).map f = (store.map f).assign name (f value) := by
  cases store <;> simp only [assign, withLayer, layer, map, Table.mapValues_put, Option.map_some]

/-- The entries of a mapped layer make of mapped entries what the layer makes of them, mapped. -/
theorem mapValues_foldl_applyEntry (layer : Table (Option α)) (visible : Table α) :
    (layer.foldl applyEntry visible).mapValues f =
      (layer.mapValues (Option.map f)).foldl applyEntry (visible.mapValues f) := by
  induction layer generalizing visible with
  | nil => rfl
  | cons entry rest ih =>
    obtain ⟨key, held⟩ := entry
    -- The first entry puts its mapped value or takes its name away.
    cases held with
    | none => exact (ih _).trans (by rw [applyEntry, Table.mapValues_without]; rfl)
    | some value => exact (ih _).trans (by rw [applyEntry, Table.mapValues_put]; rfl)

/-- A mapped store lists the mapped entries, in the same order. -/
theorem toTable_map (store : Store α) : (store.map f).toTable = store.toTable.mapValues f := by
  -- By induction on the layers, each applied to what is listed below it.
  induction store with
  | «over» base layer =>
    rw [map, toTable, toTable, mapValues_foldl_applyEntry]
    cases base <;> rfl
  | child parent layer ih => rw [map, toTable, toTable, mapValues_foldl_applyEntry, ih]

end Store
end TrialScript
