import TrialScript.Value.Display

/-! Layered variables: each layer hides the ones below, and only the top one is written. -/

namespace TrialScript

/--
What lies below the lowest layer: nothing, a fixed table, or a computed lookup.

A computed lookup always answers, and with the same value each time: one that raises an error, or
that keeps a state of its own, is outside of what is described here.
-/
inductive Base (α : Type) where
  | empty
  | mapping (entries : Table α)
  | computed (find : String → Option α)

/-- Variables in layers, in which a name without a value is cleared and stays hidden. -/
inductive Store (α : Type) where
  | over (base : Base α) (layer : Table (Option α))
  | child (parent : Store α) (layer : Table (Option α))

/-- The value that a base has for a name. -/
def Base.lookup {α : Type} (name : String) : Base α → Option α
  | .empty => none
  | .mapping entries => entries.lookup? name
  | .computed find => find name

/-- The entries that a base can list. -/
def Base.toTable {α : Type} : Base α → Table α
  | .mapping entries => entries
  | _ => []

namespace Store

variable {α : Type}

instance : Inhabited (Store α) := ⟨.over .empty []⟩

/-- The top layer. -/
def layer : Store α → Table (Option α)
  | .over _ layer => layer
  | .child _ layer => layer

/-- The same layers below another top layer. -/
def withLayer (store : Store α) (layer : Table (Option α)) : Store α :=
  match store with
  | .over base _ => .over base layer
  | .child parent _ => .child parent layer

/-- The value of a name: the first layer that mentions it decides, even by having cleared it. -/
def lookup (name : String) : Store α → Option α
  | .over base layer =>
    -- An entry decides, also by being cleared; only without one is the layer below asked.
    match layer.lookup? name with
    | some value => value
    | none => base.lookup name
  | .child parent layer =>
    match layer.lookup? name with
    | some value => value
    | none => parent.lookup name

/-- The value of a name, or a default where it has none. -/
def get (store : Store α) (name : String) (default : α) : α :=
  (store.lookup name).getD default

/-- Whether a name has a value. -/
def has (store : Store α) (name : String) : Bool :=
  (store.lookup name).isSome

/-- Gives a name a value in the top layer. -/
def assign (store : Store α) (name : String) (value : α) : Store α :=
  store.withLayer (store.layer.put name (some value))

/-- Clears a name in the top layer, which hides what lower layers have for it. -/
def clear (store : Store α) (name : String) : Store α :=
  store.withLayer (store.layer.put name none)

/-- An empty layer on top of a store. -/
def push (store : Store α) : Store α :=
  .child store []

/-- The store below the top layer, if it is one. -/
def parent? : Store α → Option (Store α)
  | .over .. => none
  | .child parent _ => some parent

/-- The names and values of a layer in order, without cleared names. -/
def live (layer : Table (Option α)) : Table α :=
  layer.filterMap fun entry => entry.2.map fun value => (entry.1, value)

/-- The names and values of the top layer in order. -/
def locals (store : Store α) : Table α :=
  live store.layer

/-- Applies one layer entry to the visible entries: a value is put, a cleared name leaves. -/
def applyEntry (visible : Table α) (entry : String × Option α) : Table α :=
  match entry.2 with
  | some value => visible.put entry.1 value
  | none => visible.without entry.1

/-- All visible names and values, those of lower layers first. -/
def toTable : Store α → Table α
  | .over base layer => layer.foldl applyEntry base.toTable
  | .child parent layer => layer.foldl applyEntry parent.toTable

/-- A base with nothing above it. -/
def ofBase (base : Base α) : Store α :=
  .over base []

/-- A store has the layer that it was given. -/
@[simp] theorem layer_withLayer (store : Store α) (entries : Table (Option α)) :
    (store.withLayer entries).layer = entries := by
  -- Both forms of a store keep the layer they are given.
  cases store <;> rfl

/-- A name that was assigned has its new value, and every other name keeps its own. -/
theorem lookup_assign (store : Store α) (name other : String) (value : α) :
    (store.assign name value).lookup other =
      if name = other then some value else store.lookup other := by
  -- The top layer answers for the assigned name and passes every other one on as before.
  cases store <;> by_cases same : name = other <;>
    simp [assign, withLayer, layer, lookup, Table.lookup?_put, same]

/-- A cleared name has no value, and every other name keeps its own. -/
theorem lookup_clear (store : Store α) (name other : String) :
    (store.clear name).lookup other = if name = other then none else store.lookup other := by
  -- The cleared entry stops the search before any lower layer is asked.
  cases store <;> by_cases same : name = other <;>
    simp [clear, withLayer, layer, lookup, Table.lookup?_put, same]

/-- An empty layer changes no lookup. -/
@[simp] theorem lookup_push (store : Store α) (name : String) :
    store.push.lookup name = store.lookup name := by
  -- The new layer mentions no name, so every search goes on below it.
  simp [push, lookup]

end Store

/-- The text of a table of variables, with cleared names marked. -/
def displayLayer (layer : Table (Option Value)) : String :=
  let entries := layer.map fun (name, value) =>
    quoted name ++ ": " ++ (match value with | some value => value.display | none => "CLEARED")
  "\x7b" ++ ", ".intercalate entries ++ "\x7d"

/-- The text of a base. -/
def Base.display : Base Value → String
  | .empty => "None"
  | .mapping entries => Value.display (.dict entries)
  | .computed _ => "<function>"

/-- The text of a store: its top layer, then what lies below. -/
def Store.display : Store Value → String
  | .over base layer =>
    "Environment(" ++ displayLayer layer ++ ", parent=" ++ base.display ++ ")"
  | .child parent layer =>
    "Environment(" ++ displayLayer layer ++ ", parent=" ++ parent.display ++ ")"

end TrialScript
