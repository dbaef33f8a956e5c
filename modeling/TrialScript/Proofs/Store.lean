import Mathlib.Data.List.Nodup
import TrialScript.Store

/-! Laws of tables and stores: what they hold and list, and what a new top layer leaves alone. -/

namespace TrialScript

namespace Table

variable {α : Type}

/-- A put name is there, and every other name is there as before. -/
theorem has_put {name other : String} {value : α} {table : Table α} :
    has other (put name value table) = true ↔ name = other ∨ has other table = true := by
  by_cases same : name = other <;> simp [has, lookup?_put, same]

/-- A name is there when it is the first one or there in the rest. -/
theorem has_cons {name key : String} {value : α} {rest : Table α} :
    has name ((key, value) :: rest) = true ↔ key = name ∨ has name rest = true := by
  by_cases same : key = name <;> simp [has, lookup?, same]

/-- A table has the names of its entries. -/
theorem has_iff_mem_names {name : String} {table : Table α} :
    has name table = true ↔ name ∈ table.names := by
  -- The induction goes through the entries in the order in which a lookup does.
  induction table with
  | nil => simp [has, names]
  | cons entry rest ih =>
    rw [has_cons, ih]
    simp [names, eq_comm]

/-- A found entry is one of the entries. -/
theorem mem_of_lookup? {name : String} {value : α} {table : Table α}
    (found : table.lookup? name = some value) : (name, value) ∈ table := by
  -- A lookup stops at the first entry of the name, which is the one it gives.
  induction table with
  | nil => cases found
  | cons entry rest ih =>
    obtain ⟨key, held⟩ := entry
    rw [lookup?] at found
    split at found
    · next same =>
      cases found
      exact same ▸ List.mem_cons_self
    · exact List.mem_cons_of_mem _ (ih found)

/-- A search that stops at the first entry of a name is a lookup, and then what is made of it. -/
theorem eq_elim_lookup? {β : Type} {name : String} {search : Table α → β} {absent : β}
    {held : α → β} (nothing : search [] = absent)
    (first : ∀ key value rest,
      search ((key, value) :: rest) = if key = name then held value else search rest)
    (table : Table α) : search table = (table.lookup? name).elim absent held := by
  -- The induction is on the entries, of which the first of the name counts.
  induction table with
  | nil => exact nothing
  | cons entry rest ih =>
    obtain ⟨key, value⟩ := entry
    rw [first, lookup?, ih]
    split <;> rfl

/-- Where no name comes twice, every entry is the one that counts. -/
theorem lookup?_of_mem {name : String} {value : α} {table : Table α} (distinct : table.names.Nodup)
    (member : (name, value) ∈ table) : table.lookup? name = some value := by
  -- Only an earlier entry of the same name could hide this one, and there is none.
  induction table with
  | nil => cases member
  | cons entry rest ih =>
    obtain ⟨key, held⟩ := entry
    obtain ⟨fresh, distinct⟩ := List.nodup_cons.mp distinct
    rcases List.mem_cons.mp member with same | later
    · cases same
      exact if_pos rfl
    · have other : key ≠ name := by
        rintro rfl
        exact fresh (List.mem_map.mpr ⟨_, later, rfl⟩)
      rw [lookup?, if_neg other, ih distinct later]

/-- An entry after a put is the one that was put or one from before. -/
theorem mem_put {name : String} {value : α} {table : Table α} {entry : String × α}
    (member : entry ∈ put name value table) : entry = (name, value) ∨ entry ∈ table := by
  -- The induction follows the put, which replaces an entry or goes on behind it.
  induction table with
  | nil => exact .inl (List.mem_singleton.mp member)
  | cons head rest ih =>
    rw [put] at member
    split at member
    · rcases List.mem_cons.mp member with new | old
      · exact .inl new
      · exact .inr (List.mem_cons_of_mem _ old)
    · rcases List.mem_cons.mp member with same | later
      · exact .inr (same ▸ List.mem_cons_self)
      · rcases ih later with new | old
        · exact .inl new
        · exact .inr (List.mem_cons_of_mem _ old)

/-- Putting a name adds no name twice. -/
theorem nodup_names_put {name : String} {value : α} {table : Table α}
    (distinct : table.names.Nodup) :
    (put name value table).names.Nodup := by
  induction table with
  | nil => simp [put, names]
  | cons entry rest ih =>
    obtain ⟨key, old⟩ := entry
    obtain ⟨fresh, distinct⟩ := List.nodup_cons.mp distinct
    by_cases same : key = name
    · -- The name stands in its old place.
      subst same
      simpa [put, names] using And.intro fresh distinct
    · have absent : ¬ has key (put name value rest) = true := by
        rw [has_put, has_iff_mem_names]
        rintro (equal | member)
        · exact same equal.symm
        · exact fresh member
      rw [put, if_neg same]
      exact List.nodup_cons.mpr ⟨fun member => absent (has_iff_mem_names.mpr member), ih distinct⟩

/-- Removing a name leaves no other one twice. -/
theorem nodup_names_without {name : String} {table : Table α} (distinct : table.names.Nodup) :
    (without name table).names.Nodup :=
  distinct.sublist (List.filter_sublist.map Prod.fst)

/-- Tables that have no name twice and find the same have the same entries, in whatever order. -/
theorem perm_of_lookup? {first second : Table α} (distinct : first.names.Nodup)
    (distinct' : second.names.Nodup)
    (same : ∀ name, first.lookup? name = second.lookup? name) : first.Perm second := by
  rw [List.perm_ext_iff_of_nodup (List.Nodup.of_map _ distinct) (List.Nodup.of_map _ distinct')]
  rintro ⟨name, value⟩
  -- An entry of either table is the one that both find under its name.
  constructor <;> intro member <;> apply mem_of_lookup?
  · rw [← same, lookup?_of_mem distinct member]
  · rw [same, lookup?_of_mem distinct' member]

/-- A put name stands in its old place or at the end, behind all names that were there. -/
theorem names_prefix_put (name : String) (value : α) (table : Table α) :
    table.names <+: (put name value table).names := by
  -- The put goes past the same names as a lookup, and replaces an entry under its own name.
  induction table with
  | nil => exact List.nil_prefix
  | cons entry rest ih =>
    obtain ⟨key, old⟩ := entry
    by_cases same : key = name
    · subst same
      simp [put, names]
    · rw [put, if_neg same]
      exact (List.prefix_cons_inj key).mpr ih

end Table

namespace Store

variable {α : Type}

/-- A store keeps the layer that it has. -/
@[simp] theorem withLayer_layer (store : Store α) : store.withLayer store.layer = store := by
  cases store <;> rfl

/-- Of two new layers the second one stays. -/
@[simp] theorem withLayer_withLayer (store : Store α) (first second : Table (Option α)) :
    (store.withLayer first).withLayer second = store.withLayer second := by
  cases store <;> rfl

/-- A pushed layer is empty. -/
@[simp] theorem layer_push (store : Store α) : store.push.layer = [] := rfl

/-- One store is another with a different top layer. -/
def Overlays (before after : Store α) : Prop :=
  ∃ layer, after = before.withLayer layer

namespace Overlays

/-- Every store overlays itself. -/
theorem refl (store : Store α) : store.Overlays store :=
  ⟨store.layer, store.withLayer_layer.symm⟩

/-- Overlaying an overlay overlays the store below. -/
theorem trans {first second third : Store α} (earlier : first.Overlays second)
    (later : second.Overlays third) : first.Overlays third := by
  -- Both changes are made to the top layer, so the later one alone is left.
  obtain ⟨layer, rfl⟩ := earlier
  obtain ⟨layer', rfl⟩ := later
  exact ⟨layer', first.withLayer_withLayer layer layer'⟩

/-- An assignment changes the top layer only. -/
theorem assign (store : Store α) (name : String) (value : α) :
    store.Overlays (store.assign name value) :=
  ⟨_, rfl⟩

/-- What a store above another has for a name is among its own values or comes from below. -/
theorem lookup_of_push {outer inner : Store α} (above : outer.push.Overlays inner) {name : String}
    {value : α} (found : inner.lookup name = some value) :
    (name, value) ∈ inner.locals ∨ outer.lookup name = some value := by
  obtain ⟨layer, rfl⟩ := above
  simp only [push, withLayer, lookup] at found
  split at found
  · next held mentioned =>
    -- The layer mentions the name, and not as a cleared one.
    subst found
    refine .inl (List.mem_filterMap.mpr ⟨(name, some value), ?_, rfl⟩)
    exact Table.mem_of_lookup? mentioned
  · exact .inr found

end Overlays

/-- A relation between stores that holds of any number of steps when it holds of each. -/
structure Chains (relation : Store α → Store α → Prop) : Prop where
  refl : ∀ store, relation store store
  trans : ∀ {first second third}, relation first second → relation second third →
    relation first third

/-- A relation between stores that every run of assignments keeps. -/
structure KeptByAssign (relation : Store α → Store α → Prop) : Prop extends Chains relation where
  assign : ∀ store name value, relation store (store.assign name value)

/-- Assignments change the top layer only. -/
theorem Overlays.kept : KeptByAssign (Overlays (α := α)) :=
  ⟨⟨refl, trans⟩, assign⟩

/-- A store whose top layer has no name twice and clears none. -/
structure Tidy (store : Store α) : Prop where
  distinct : store.layer.names.Nodup
  live : ∀ entry ∈ store.layer, entry.2.isSome

/-- An empty top layer is tidy. -/
theorem Tidy.of_layer_nil {store : Store α} (empty : store.layer = []) : store.Tidy := by
  constructor <;> simp [empty, Table.names]

/-- Assignments keep a store tidy. -/
theorem Tidy.kept : KeptByAssign fun before after : Store α => before.Tidy → after.Tidy where
  refl _ tidy := tidy
  trans earlier later tidy := later (earlier tidy)
  assign store name value tidy := by
    -- The new entry is no tombstone, and the others were none before.
    constructor
    · simp only [Store.assign, layer_withLayer]
      exact Table.nodup_names_put tidy.distinct
    · intro entry member
      simp only [Store.assign, layer_withLayer] at member
      rcases Table.mem_put member with rfl | old
      · rfl
      · exact tidy.live entry old

/-- What the top layer says of a name is the answer, whatever lies below. -/
theorem lookup_of_layer {store : Store α} {name : String} {held : Option α}
    (mentioned : store.layer.lookup? name = some held) : store.lookup name = held := by
  cases store <;> simp only [layer] at mentioned <;> simp only [lookup, mentioned]

/-- A value among the locals of a tidy store is the value of its name. -/
theorem Tidy.lookup_of_mem_locals {store : Store α} (tidy : store.Tidy) {name : String} {value : α}
    (member : (name, value) ∈ store.locals) : store.lookup name = some value := by
  -- The layer has a single entry of the name, so the search stops there.
  have inLayer : (name, some value) ∈ store.layer := by
    simp only [locals, Store.live, List.mem_filterMap, Option.map_eq_some_iff] at member
    obtain ⟨⟨key, held⟩, inside, found, holds, same⟩ := member
    cases same
    exact holds ▸ inside
  exact lookup_of_layer (Table.lookup?_of_mem tidy.distinct inLayer)

/-- Where a layer has no name twice, its entry decides over what is visible below it. -/
theorem lookup?_foldl_applyEntry {name : String} {layer : Table (Option α)}
    (distinct : layer.names.Nodup) (visible : Table α) :
    Table.lookup? name (layer.foldl applyEntry visible) =
      (layer.lookup? name).getD (visible.lookup? name) := by
  -- Each entry is put over what is visible below it or takes it away, and none is replaced.
  induction layer generalizing visible with
  | nil => rfl
  | cons entry rest ih =>
    obtain ⟨key, held⟩ := entry
    obtain ⟨fresh, others⟩ := List.nodup_cons.mp distinct
    rw [List.foldl_cons, ih others]
    by_cases same : key = name
    · -- The name has no second entry, so what the first one has done stays.
      subst same
      have absent : Table.lookup? key rest = none := by
        rw [← Option.not_isSome_iff_eq_none]
        exact fun found => fresh (Table.has_iff_mem_names.mp found)
      cases held <;>
        simp [applyEntry, Table.lookup?, Table.lookup?_put, Table.lookup?_without, absent]
    · cases held <;>
        simp [applyEntry, Table.lookup?, Table.lookup?_put, Table.lookup?_without, same]

/-- A layer without cleared names lists its own names besides those that are visible below it. -/
theorem has_foldl_applyEntry {name : String} {layer : Table (Option α)}
    (alive : ∀ entry ∈ layer, entry.2.isSome) (visible : Table α) :
    Table.has name (layer.foldl applyEntry visible) = true ↔
      Table.has name visible = true ∨ Table.has name (live layer) = true := by
  -- Each entry of the layer is put over what is visible below it.
  induction layer generalizing visible with
  | nil => simp [live, Table.has]
  | cons entry rest ih =>
    obtain ⟨here, others⟩ := List.forall_mem_cons.mp alive
    obtain ⟨key, held⟩ := entry
    cases held with
    | none => cases here
    | some value =>
      have alone : live ((key, some value) :: rest) = (key, value) :: live rest := rfl
      rw [List.foldl_cons, ih others, alone, Table.has_cons]
      simp only [applyEntry, Table.has_put]
      rw [or_assoc, or_left_comm]

/-- Above an empty layer, exactly the names of the locals are listed besides those from before. -/
theorem Tidy.has_toTable {before after : Store α} (empty : before.layer = [])
    (above : before.Overlays after) (tidy : after.Tidy) {name : String} :
    Table.has name after.toTable = true ↔
      Table.has name before.toTable = true ∨ Table.has name after.locals = true := by
  obtain ⟨layer, rfl⟩ := above
  have alive := tidy.live
  simp only [layer_withLayer] at alive
  -- What is listed before is what is visible below the layer.
  cases before <;> simp only [Store.layer] at empty <;> subst empty <;>
    exact has_foldl_applyEntry alive _

/-- Above an empty layer, the listed value of a name is the one that a lookup finds. -/
theorem Tidy.lookup?_toTable {before after : Store α} (empty : before.layer = [])
    (above : before.Overlays after) (tidy : after.Tidy) {name : String}
    (listed : before.toTable.lookup? name = before.lookup name) :
    after.toTable.lookup? name = after.lookup name := by
  -- The layer decides over what is visible below it, for the listing as for the lookup.
  obtain ⟨layer, rfl⟩ := above
  have distinct := tidy.distinct
  simp only [layer_withLayer] at distinct
  have nothing : ∀ visible : Table α,
      ([] : Table (Option α)).foldl applyEntry visible = visible := fun _ => rfl
  cases before <;> simp only [Store.layer] at empty <;> subst empty <;>
    simp only [toTable, nothing, lookup, Table.lookup?] at listed <;>
    simp only [withLayer, toTable, lookup, lookup?_foldl_applyEntry distinct, listed] <;>
    cases Table.lookup? name layer <;> rfl

/-- The entries of a layer make no visible name come twice. -/
theorem nodup_names_foldl_applyEntry (layer : Table (Option α)) {visible : Table α}
    (distinct : visible.names.Nodup) : (layer.foldl applyEntry visible).names.Nodup := by
  induction layer generalizing visible with
  | nil => exact distinct
  | cons entry rest ih =>
    refine ih ?_
    -- An entry puts its name or takes it away.
    rw [applyEntry]
    split
    · exact Table.nodup_names_put distinct
    · exact Table.nodup_names_without distinct

end Store

/-- A base that can list what it has, and has no name twice. -/
def Base.Listable {α : Type} : Base α → Prop
  | .empty => True
  | .mapping entries => entries.names.Nodup
  | .computed _ => False

namespace Store

variable {α : Type}

/-- A store over a base that can list what it has, with no name twice in any layer. -/
def Listable : Store α → Prop
  | .over base layer => base.Listable ∧ layer.names.Nodup
  | .child parent layer => parent.Listable ∧ layer.names.Nodup

/-- The listed value of a name is the one that a lookup finds, through any number of layers. -/
theorem Listable.lookup?_toTable {store : Store α} (listable : store.Listable) (name : String) :
    store.toTable.lookup? name = store.lookup name := by
  -- The induction goes down the layers, each of which decides in both in the same way.
  induction store with
  | «over» base layer =>
    obtain ⟨below, distinct⟩ := listable
    have listed : base.toTable.lookup? name = base.lookup name := by
      cases base with
      | empty | mapping entries => rfl
      | computed find => cases below
    rw [toTable, lookup?_foldl_applyEntry distinct, listed, lookup]
    cases Table.lookup? name layer <;> rfl
  | child parent layer ih =>
    obtain ⟨below, distinct⟩ := listable
    rw [toTable, lookup?_foldl_applyEntry distinct, ih below, lookup]
    cases Table.lookup? name layer <;> rfl

/-- No name is listed twice. -/
theorem Listable.nodup_names_toTable {store : Store α} (listable : store.Listable) :
    store.toTable.names.Nodup := by
  -- By induction on the layers, whose entries are applied to distinct names below.
  induction store with
  | «over» base layer =>
    refine nodup_names_foldl_applyEntry layer ?_
    cases base with
    | empty => exact List.nodup_nil
    | mapping entries => exact listable.1
    | computed find => cases listable.1
  | child parent layer ih => exact nodup_names_foldl_applyEntry layer (ih listable.1)

/-- Assignments keep a store listable. -/
theorem Listable.kept : KeptByAssign fun before after : Store α =>
    before.Listable → after.Listable where
  refl _ listable := listable
  trans earlier later listable := later (earlier listable)
  assign store name value listable := by
    -- Only the top layer changes, where the name is put.
    cases store <;> exact ⟨listable.1, Table.nodup_names_put listable.2⟩

/-- A value that was put is live, and every other name is live as before. -/
theorem has_live_put {name other : String} {value : α} {layer : Table (Option α)} :
    Table.has other (live (Table.put name (some value) layer)) = true ↔
      name = other ∨ Table.has other (live layer) = true := by
  -- The put replaces the entry of the name, cleared or not, or adds one at the end.
  simp only [Table.has_iff_mem_names]
  induction layer with
  | nil => simp [Table.put, live, Table.names, eq_comm]
  | cons entry rest ih =>
    obtain ⟨key, old⟩ := entry
    by_cases same : key = name
    · subst same
      cases old <;> simp [Table.put, live, Table.names, eq_comm]
    · simp only [live, Table.names] at ih
      cases old <;> simp [Table.put, same, live, Table.names, ih, or_left_comm, eq_comm]

/-- The assigned name is among the names of the top layer, and every other one as before. -/
theorem has_locals_assign {store : Store α} {name other : String} {value : α} :
    Table.has other (store.assign name value).locals = true ↔
      name = other ∨ Table.has other store.locals = true := by
  simp only [locals, assign, layer_withLayer]
  exact has_live_put

end Store
end TrialScript
