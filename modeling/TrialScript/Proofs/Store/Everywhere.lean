import TrialScript.Proofs.Store

/-! Stores in which every value of every layer has a property. -/

namespace TrialScript

variable {α : Type} {holds : α → Prop}

/-- Every value that a base can give has a property. -/
def Base.Everywhere (holds : α → Prop) : Base α → Prop
  | .empty => True
  | .mapping entries => ∀ entry ∈ entries, holds entry.2
  | .computed find => ∀ name value, find name = some value → holds value

/-- Every value of a layer has a property; cleared names have none. -/
def LayerHolds (holds : α → Prop) (layer : Table (Option α)) : Prop :=
  ∀ entry ∈ layer, ∀ value, entry.2 = some value → holds value

/-- A value that is put in a layer needs the property, and so do those of the other names. -/
theorem LayerHolds.put {layer : Table (Option α)} (each : LayerHolds holds layer) (name : String)
    {held : Option α} (here : ∀ value, held = some value → holds value) :
    LayerHolds holds (layer.put name held) := by
  intro entry member
  rcases Table.mem_put member with rfl | old
  · exact here
  · exact each entry old

namespace Store

/-- Every value in every layer and below them has a property, hidden ones included. -/
def Everywhere (holds : α → Prop) : Store α → Prop
  | .over base layer => base.Everywhere holds ∧ LayerHolds holds layer
  | .child parent layer => parent.Everywhere holds ∧ LayerHolds holds layer

/-- What follows from a property holds wherever the property does. -/
theorem Everywhere.mono {wider : α → Prop} (widen : ∀ value, holds value → wider value)
    {store : Store α} (everywhere : store.Everywhere holds) : store.Everywhere wider := by
  have layers {layer : Table (Option α)} (each : LayerHolds holds layer) : LayerHolds wider layer :=
    fun entry member value held => widen value (each entry member value held)
  -- The induction is over the layers, down to the base.
  induction store with
  | «over» base layer =>
    refine ⟨?_, layers everywhere.2⟩
    cases base with
    | empty => trivial
    | mapping entries => exact fun entry member => widen _ (everywhere.1 entry member)
    | computed find => exact fun name value found => widen _ (everywhere.1 name value found)
  | child parent layer ih => exact ⟨ih everywhere.1, layers everywhere.2⟩

/-- Applying a layer to visible values shows some of those and some of its own. -/
theorem forall_foldl_applyEntry {layer : Table (Option α)} (each : LayerHolds holds layer)
    {visible : Table α} (below : ∀ entry ∈ visible, holds entry.2) :
    ∀ entry ∈ layer.foldl applyEntry visible, holds entry.2 := by
  -- The induction is on the layer, each entry of which puts its value or removes a name.
  induction layer generalizing visible with
  | nil => exact below
  | cons entry rest ih =>
    obtain ⟨here, others⟩ := List.forall_mem_cons.mp each
    refine ih others fun shown member => ?_
    unfold applyEntry at member
    split at member
    · next value held =>
      rcases Table.mem_put member with rfl | old
      · exact here value held
      · exact below shown old
    · exact below shown (List.mem_of_mem_filter member)

namespace Everywhere

variable {store : Store α} (everywhere : store.Everywhere holds)

include everywhere

/-- The top layer holds what holds everywhere. -/
theorem layer : LayerHolds holds store.layer := by
  cases store with
  | «over» base layer | child parent layer => exact everywhere.2

/-- A layer that holds it can take the place of the top one. -/
theorem withLayer {layer : Table (Option α)} (each : LayerHolds holds layer) :
    (store.withLayer layer).Everywhere holds := by
  cases store with
  | «over» base old | child parent old => exact ⟨everywhere.1, each⟩

/-- The value of a name has the property, whichever layer gives it. -/
theorem of_lookup {name : String} {value : α} (found : store.lookup name = some value) :
    holds value := by
  -- The search stops in the first layer that mentions the name, or goes on below.
  induction store with
  | «over» base layer =>
    obtain ⟨below, each⟩ := everywhere
    rw [lookup] at found
    split at found
    · next held mentioned => exact each _ (Table.mem_of_lookup? mentioned) value found
    · cases base with
      | empty => cases found
      | mapping entries => exact below _ (Table.mem_of_lookup? found)
      | computed find => exact below name value found
  | child parent layer ih =>
    obtain ⟨below, each⟩ := everywhere
    rw [lookup] at found
    split at found
    · next held mentioned => exact each _ (Table.mem_of_lookup? mentioned) value found
    · exact ih below found

/-- What is read holds it, if the default does. -/
theorem get {default : α} (absent : holds default) (name : String) :
    holds (store.get name default) := by
  unfold Store.get
  cases found : store.lookup name with
  | none => exact absent
  | some value => exact everywhere.of_lookup found

/-- An assignment keeps it, if the value has it. -/
theorem assign (name : String) {value : α} (here : holds value) :
    (store.assign name value).Everywhere holds := by
  refine everywhere.withLayer (everywhere.layer.put name ?_)
  rintro _ ⟨⟩
  exact here

/-- An empty layer on top keeps it. -/
theorem push : store.push.Everywhere holds :=
  ⟨everywhere, fun _ member => absurd member List.not_mem_nil⟩

/-- The values that the top layer lists have the property. -/
theorem of_mem_locals {entry : String × α} (member : entry ∈ store.locals) : holds entry.2 := by
  obtain ⟨⟨name, held⟩, inLayer, shown⟩ := List.mem_filterMap.mp member
  obtain ⟨value, rfl, rfl⟩ := Option.map_eq_some_iff.mp shown
  exact everywhere.layer _ inLayer value rfl

/-- The values that a store lists have the property. -/
theorem of_mem_toTable {entry : String × α} (member : entry ∈ store.toTable) : holds entry.2 := by
  -- The induction is over the layers, of which the lower ones are shown first.
  induction store generalizing entry with
  | «over» base layer =>
    obtain ⟨below, each⟩ := everywhere
    refine forall_foldl_applyEntry each ?_ entry member
    cases base with
    | empty | computed => exact fun _ inside => absurd inside List.not_mem_nil
    | mapping entries => exact below
  | child parent layer ih =>
    obtain ⟨below, each⟩ := everywhere
    exact forall_foldl_applyEntry each (fun _ inside => ih below inside) entry member

end Everywhere
end Store
end TrialScript
