import TrialScript.Proofs.Store

/-! Histories: whatever has happened to a store of any layers, it shows one plain table. -/

namespace TrialScript

/-- What can happen to a store: a write to its top layer, or a new layer on top of it. -/
inductive Change (α : Type) where
  | assign (name : String) (value : α)
  | clear (name : String)
  | push

namespace Change

variable {α : Type}

/-- A store after a change. -/
def apply (store : Store α) : Change α → Store α
  | assign name value => store.assign name value
  | clear name => store.clear name
  | push => store.push

/-- A plain table after a change: there is no layer in it, and a cleared name leaves. -/
def applyPlain (table : Table α) : Change α → Table α
  | assign name value => table.put name value
  | clear name => table.without name
  | push => table

end Change

namespace Table

variable {α : Type}

/-- A plain table after changes in order. -/
def after (table : Table α) (changes : List (Change α)) : Table α :=
  changes.foldl Change.applyPlain table

/-- No change makes a name come twice in a plain table. -/
theorem nodup_names_after {table : Table α} (distinct : table.names.Nodup)
    (changes : List (Change α)) : (table.after changes).names.Nodup := by
  -- The induction is over the changes, each of which puts a name, removes one or does nothing.
  induction changes generalizing table with
  | nil => exact distinct
  | cons change rest ih =>
    refine ih ?_
    cases change with
    | assign name value => exact nodup_names_put distinct
    | clear name => exact nodup_names_without distinct
    | push => exact distinct

end Table

namespace Store

variable {α : Type}

/-- A store after changes in order. -/
def after (store : Store α) (changes : List (Change α)) : Store α :=
  changes.foldl Change.apply store

/-- The stores below the top layer, the nearest first. -/
def ancestors : Store α → List (Store α)
  | .over _ _ => []
  | .child parent _ => parent :: parent.ancestors

/-- A change of the top layer touches no store below it. -/
theorem Overlays.ancestors_eq {before after : Store α} (above : before.Overlays after) :
    after.ancestors = before.ancestors := by
  obtain ⟨layer, rfl⟩ := above
  cases before <;> rfl

/-- Clearing a name changes the top layer only. -/
theorem Overlays.clear (store : Store α) (name : String) : store.Overlays (store.clear name) :=
  ⟨_, rfl⟩

/-- The stores below stay, and a new layer adds the one that it covers. -/
theorem ancestors_suffix_after (store : Store α) (changes : List (Change α)) :
    store.ancestors <:+ (store.after changes).ancestors := by
  -- By induction on the changes: only a push adds to what is below.
  induction changes generalizing store with
  | nil => exact List.suffix_rfl
  | cons change rest ih =>
    refine List.IsSuffix.trans ?_ (ih (change.apply store))
    cases change with
    | assign name value => exact (Overlays.assign store name value).ancestors_eq ▸ List.suffix_rfl
    | clear name => exact (Overlays.clear store name).ancestors_eq ▸ List.suffix_rfl
    | push => exact List.suffix_cons store store.ancestors

/-- One change does the same to what a lookup finds in a store and in a plain table. -/
theorem lookup_apply {store : Store α} {table : Table α}
    (same : ∀ name, store.lookup name = table.lookup? name) (change : Change α) (name : String) :
    (change.apply store).lookup name = (change.applyPlain table).lookup? name := by
  -- One case for each kind of change; a push changes no lookup.
  cases change with
  | assign other value =>
    rw [Change.apply, Change.applyPlain, lookup_assign, Table.lookup?_put, same]
  | clear other =>
    rw [Change.apply, Change.applyPlain, lookup_clear, Table.lookup?_without, same]
  | push => rw [Change.apply, Change.applyPlain, lookup_push, same]

/-- Changes in order do the same to what a lookup finds in a store and in a plain table. -/
theorem lookup_after {store : Store α} {table : Table α}
    (same : ∀ name, store.lookup name = table.lookup? name) (changes : List (Change α))
    (name : String) : (store.after changes).lookup name = (table.after changes).lookup? name := by
  -- The induction is over the changes, with the agreement as what each of them keeps.
  induction changes generalizing store table with
  | nil => exact same name
  | cons change rest ih => exact ih fun other => lookup_apply same change other

/-- A name without a value gets none from changes that do not assign it. -/
theorem lookup_after_eq_none {store : Store α} {name : String} (absent : store.lookup name = none)
    {changes : List (Change α)} (unassigned : ∀ value, .assign name value ∉ changes) :
    (store.after changes).lookup name = none := by
  -- By induction on the changes, none of which gives the name a value.
  induction changes generalizing store with
  | nil => exact absent
  | cons change rest ih =>
    have later : ∀ value, .assign name value ∉ rest := fun value member =>
      unassigned value (List.mem_cons_of_mem _ member)
    refine ih ?_ later
    cases change with
    | assign other value =>
      have differs : other ≠ name := by
        rintro rfl
        exact unassigned value List.mem_cons_self
      rw [Change.apply, lookup_assign, if_neg differs, absent]
    | clear other => rw [Change.apply, lookup_clear, absent, ite_self]
    | push => rw [Change.apply, lookup_push, absent]

/-- A change keeps a store listable. -/
theorem Listable.apply {store : Store α} (listable : store.Listable) (change : Change α) :
    (change.apply store).Listable := by
  cases change with
  | assign name value => exact Listable.kept.assign store name value listable
  | clear name => cases store <;> exact ⟨listable.1, Table.nodup_names_put listable.2⟩
  | push => exact ⟨listable, List.nodup_nil⟩

/-- Changes keep a store listable. -/
theorem Listable.after {store : Store α} (listable : store.Listable) (changes : List (Change α)) :
    (store.after changes).Listable := by
  induction changes generalizing store with
  | nil => exact listable
  | cons change rest ih => exact ih (listable.apply change)

/-- What a store lists after changes is what the changes make of the plain table listed before. -/
theorem Listable.toTable_after {store : Store α} (listable : store.Listable)
    (changes : List (Change α)) :
    (store.after changes).toTable.Perm (store.toTable.after changes) := by
  -- Neither table has a name twice, and both give every name the same value.
  have distinct := Table.nodup_names_after listable.nodup_names_toTable changes
  refine Table.perm_of_lookup? (listable.after changes).nodup_names_toTable distinct fun name => ?_
  rw [(listable.after changes).lookup?_toTable]
  exact lookup_after (fun other => (listable.lookup?_toTable other).symm) changes name

/-- A store whose reads and writes are those of the plain table that it lists. -/
structure ShowsTable (store : Store α) : Prop where
  distinct : store.toTable.names.Nodup
  get : ∀ name default, store.get name default = (store.toTable.lookup? name).getD default
  has : ∀ name, store.has name = true ↔ name ∈ store.toTable.names
  assign : ∀ name value, (store.assign name value).toTable.Perm (store.toTable.put name value)
  clear : ∀ name, (store.clear name).toTable.Perm (store.toTable.without name)
  push : store.push.toTable = store.toTable
  -- A cleared name stays hidden until it is assigned, whatever is in the layers below.
  hidden : ∀ name (other : Store α), other.layer = (store.clear name).layer →
    ∀ changes, (∀ value, .assign name value ∉ changes) →
      ∀ default, (other.after changes).get name default = default
  ancestors_assign : ∀ name value, (store.assign name value).ancestors = store.ancestors
  ancestors_clear : ∀ name, (store.clear name).ancestors = store.ancestors
  ancestors_push : store.push.ancestors = store :: store.ancestors

/-- A store that can list what it has shows the table that it lists. -/
theorem Listable.showsTable {store : Store α} (listable : store.Listable) : store.ShowsTable where
  distinct := listable.nodup_names_toTable
  get name default := by rw [Store.get, listable.lookup?_toTable]
  has name := by
    rw [← Table.has_iff_mem_names, Table.has, listable.lookup?_toTable, Store.has]
  assign name value := listable.toTable_after [.assign name value]
  clear name := listable.toTable_after [.clear name]
  push := rfl
  hidden name other same changes unassigned default := by
    -- The tombstone is in the layer itself, so nothing below can show the name.
    have cleared : other.layer.lookup? name = some none := by
      rw [same, Store.clear, layer_withLayer, Table.lookup?_put, if_pos rfl]
    rw [Store.get, lookup_after_eq_none (lookup_of_layer cleared) unassigned, Option.getD_none]
  ancestors_assign name value := (Overlays.assign store name value).ancestors_eq
  ancestors_clear name := (Overlays.clear store name).ancestors_eq
  ancestors_push := rfl

/--
Stores in layers refine plain tables.

After any changes a store shows the table that it lists, which is what the changes make of the one
that it listed at first; the stores below its top layer are still those from before.
-/
theorem shows_plain_table {start : Store α} (listable : start.Listable)
    (changes : List (Change α)) :
    (start.after changes).ShowsTable ∧
      (start.after changes).toTable.Perm (start.toTable.after changes) ∧
      start.ancestors <:+ (start.after changes).ancestors :=
  ⟨(listable.after changes).showsTable, listable.toTable_after changes,
    ancestors_suffix_after start changes⟩

/-- A cleared name and a stored null in three layers, on which a new layer assigns both names. -/
theorem shows_plain_table_cleared :
    let start : Store Value :=
      .child (.over (.mapping [("x", .null), ("y", .int 1)]) [("y", none)]) [("z", some (.int 2))]
    let changes : List (Change Value) :=
      [.clear "x", .push, .assign "y" (.int 3), .assign "x" .null]
    start.Listable ∧ (start.after changes).ShowsTable ∧
      (start.after changes).toTable.Perm (start.toTable.after changes) ∧
      start.ancestors <:+ (start.after changes).ancestors := by
  intro start changes
  have listable : start.Listable := by
    simp [start, Store.Listable, Base.Listable, Table.names]
  exact ⟨listable, shows_plain_table listable changes⟩

end Store
end TrialScript
