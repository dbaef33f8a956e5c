import TrialScript.Proofs.Preview.Visits
import TrialScript.Proofs.Store

/-! Joining branches: which names are collected, and what each of them holds afterwards. -/

namespace TrialScript

/-- All entries of a name, in order. -/
def Table.entriesOf {α : Type} (name : String) (table : Table α) : List α :=
  table.filterMap fun (key, value) => if key = name then some value else none

namespace Table

variable {α : Type}

/-- There is nothing under any name in an empty table. -/
@[simp] theorem entriesOf_nil (name : String) : entriesOf name ([] : Table α) = [] := rfl

/-- The first entry counts if it has the name. -/
@[simp] theorem entriesOf_cons (name key : String) (value : α) (rest : Table α) :
    entriesOf name ((key, value) :: rest) =
      if key = name then value :: entriesOf name rest else entriesOf name rest := by
  by_cases same : key = name <;> simp [entriesOf, same]

/-- An entry of a name is one of the entries. -/
theorem mem_entriesOf {name : String} {value : α} {table : Table α} :
    value ∈ table.entriesOf name ↔ (name, value) ∈ table := by
  -- Filtering keeps exactly the entries of the name.
  simp only [entriesOf, List.mem_filterMap]
  constructor
  · rintro ⟨⟨key, held⟩, member, found⟩
    split at found
    · next same =>
      cases found
      exact same ▸ member
    · cases found
  · intro member
    exact ⟨_, member, if_pos rfl⟩

/-- The first of the entries of a name is the one that counts. -/
theorem lookup?_eq_head? (name : String) (table : Table α) :
    table.lookup? name = (table.entriesOf name).head? := by
  -- The induction goes through the entries in the order in which a lookup does.
  induction table with
  | nil => rfl
  | cons entry rest ih =>
    obtain ⟨key, value⟩ := entry
    by_cases same : key = name <;> simp [lookup?, same, ih]

/-- A table has a name when the name has entries. -/
theorem has_iff_entriesOf {name : String} {table : Table α} :
    has name table = true ↔ table.entriesOf name ≠ [] := by
  rw [has, lookup?_eq_head?, List.isSome_head?]

end Table

/-- Collecting a branch adds its entries of a name to those that the name had. -/
theorem lookup?_collectBranch (collected : Table (List Description)) (branch : Table Description)
    (name : String) :
    (collectBranch collected branch).lookup? name =
      if branch.entriesOf name = [] then collected.lookup? name
      else some ((collected.lookup? name).getD [] ++ branch.entriesOf name) := by
  -- The fold goes through the entries of the branch, each of which changes one name.
  induction branch generalizing collected with
  | nil => simp [collectBranch, Table.entriesOf]
  | cons entry rest ih =>
    obtain ⟨key, description⟩ := entry
    -- The first entry is added to what its name has, and the fold goes on from there.
    let grown := collected.put key ((collected.lookup? key).getD [] ++ [description])
    have step : collectBranch collected ((key, description) :: rest) = collectBranch grown rest := rfl
    rw [step, ih, Table.lookup?_put]
    by_cases same : key = name
    · by_cases last : Table.entriesOf name rest = [] <;> simp [same, last]
    · simp [same]

/-- All branches together give a name the entries that they have for it, in order. -/
theorem lookup?_collected (branches : List (Table Description)) (name : String) :
    Table.lookup? name (branches.foldl collectBranch []) =
      if branches.flatMap (Table.entriesOf name) = [] then none
      else some (branches.flatMap (Table.entriesOf name)) := by
  -- Collecting starts from nothing, but the fold is followed from any table.
  have general : ∀ collected : Table (List Description),
      Table.lookup? name (branches.foldl collectBranch collected) =
        if branches.flatMap (Table.entriesOf name) = [] then collected.lookup? name
        else some
          ((collected.lookup? name).getD [] ++ branches.flatMap (Table.entriesOf name)) := by
    induction branches with
    | nil => simp
    | cons branch rest ih =>
      intro collected
      rw [List.foldl_cons, ih, lookup?_collectBranch, List.flatMap_cons]
      by_cases here : branch.entriesOf name = []
      · simp [here]
      · by_cases later : rest.flatMap (Table.entriesOf name) = [] <;> simp [here, later]
  simpa using general []

/-- The collected names are those that some branch has. -/
theorem mem_names_collected {branches : List (Table Description)} {name : String} :
    name ∈ (branches.foldl collectBranch []).names ↔
      ∃ branch ∈ branches, Table.has name branch = true := by
  -- A name is collected when the entries that all branches have for it are not empty.
  rw [← Table.has_iff_mem_names, Table.has, lookup?_collected]
  simp only [Table.has_iff_entriesOf, ne_eq]
  by_cases none : branches.flatMap (Table.entriesOf name) = []
  · -- Without an entry the name is not collected, and no branch has it.
    simp only [none, if_true, Option.isSome_none, Bool.false_eq_true, false_iff]
    rintro ⟨branch, member, some⟩
    exact some (List.flatMap_eq_nil_iff.mp none branch member)
  · simp only [none, if_false, Option.isSome_some, true_iff]
    rw [List.flatMap_eq_nil_iff] at none
    simpa using none

/-- No name is collected twice. -/
theorem nodup_names_collected (branches : List (Table Description)) :
    (branches.foldl collectBranch []).names.Nodup := by
  -- Both folds put one name at a time into a table that starts empty.
  let Distinct (collected : Table (List Description)) := collected.names.Nodup
  refine List.foldlRecOn (motive := Distinct) branches collectBranch List.nodup_nil ?_
  intro collected distinct branch _
  refine List.foldlRecOn (motive := Distinct) branch _ distinct ?_
  intro collected distinct entry _
  exact Table.nodup_names_put distinct

/-- Joining assigns the join of the first name and goes on with the others. -/
theorem assignJoined_cons {key : String} {descriptions : List Description}
    {rest : Table (List Description)} {before after : Store Description}
    (joined : (assignJoined ((key, descriptions) :: rest)).run before = (.ok (), after)) :
    ∃ description, Description.join descriptions = .ok description ∧
      (assignJoined rest).run (before.assign key description) = (.ok (), after) := by
  -- The join has a result, or the whole would have stopped at it.
  rw [assignJoined] at joined
  obtain ⟨description, middle, made, onward⟩ := Stateful.run_bind_ok joined
  rw [Stateful.run_lift, Prod.mk.injEq] at made
  obtain ⟨made, rfl⟩ := made
  obtain ⟨_, middle, changed, further⟩ := Stateful.run_bind_ok onward
  cases changed
  exact ⟨description, made, further⟩

/-- Joining gives every collected name the join of its descriptions, and leaves the others. -/
theorem lookup_of_assignJoined {collected : Table (List Description)}
    {before after : Store Description}
    (joined : (assignJoined collected).run before = (.ok (), after))
    (distinct : collected.names.Nodup) (name : String) :
    match collected.lookup? name with
    | none => after.lookup name = before.lookup name
    | some descriptions => ∃ description, Description.join descriptions = .ok description ∧
        after.lookup name = some description := by
  -- The induction is on the collected names, of which no two are the same.
  induction collected generalizing before with
  | nil =>
    cases joined
    rfl
  | cons entry rest ih =>
    obtain ⟨key, descriptions⟩ := entry
    obtain ⟨fresh, distinct⟩ := List.nodup_cons.mp distinct
    obtain ⟨description, made, further⟩ := assignJoined_cons joined
    have others := ih further distinct
    by_cases same : key = name
    · -- The name has no second entry, so its join stays.
      subst same
      have absent : Table.lookup? key rest = none := by
        rw [← Option.not_isSome_iff_eq_none]
        exact fun found => fresh (Table.has_iff_mem_names.mp found)
      rw [absent] at others
      simp only [Table.lookup?, if_true]
      exact ⟨description, made, by simpa [Store.lookup_assign] using others⟩
    · simpa [Table.lookup?, same, Store.lookup_assign] using others

/-- Joining branches gives a name the join of all its entries, if it has any. -/
theorem lookup_joined {branches : List (Table Description)} {before after : Store Description}
    (joined : (assignJoined (branches.foldl collectBranch [])).run before = (.ok (), after))
    (name : String) :
    (branches.flatMap (Table.entriesOf name) = [] ∧ after.lookup name = before.lookup name) ∨
      branches.flatMap (Table.entriesOf name) ≠ [] ∧ ∃ description,
        Description.join (branches.flatMap (Table.entriesOf name)) = .ok description ∧
          after.lookup name = some description := by
  -- What is collected for a name are its entries in all branches, in order.
  have assigned := lookup_of_assignJoined joined (nodup_names_collected branches) name
  rw [lookup?_collected] at assigned
  by_cases none : branches.flatMap (Table.entriesOf name) = []
  · rw [if_pos none] at assigned
    exact .inl ⟨none, assigned⟩
  · rw [if_neg none] at assigned
    exact .inr ⟨none, assigned⟩

/-- Joining adds the collected names to those of the top layer. -/
theorem has_locals_of_assignJoined {collected : Table (List Description)}
    {before after : Store Description} {name : String}
    (joined : (assignJoined collected).run before = (.ok (), after)) :
    Table.has name after.locals = true ↔
      Table.has name before.locals = true ∨ name ∈ collected.names := by
  -- The induction is on the collected names, each of which is assigned in turn.
  induction collected generalizing before with
  | nil =>
    cases joined
    simp [Table.names]
  | cons entry rest ih =>
    obtain ⟨key, descriptions⟩ := entry
    obtain ⟨description, made, further⟩ := assignJoined_cons joined
    rw [ih further, Store.has_locals_assign]
    simp only [Table.names, List.map_cons, List.mem_cons, or_assoc, or_left_comm, eq_comm]

section Kept

variable {relation : Store Description → Store Description → Prop}

/-- Every preview of a script with a result relates the store before it to the one after it. -/
def Tree.PreviewKeeps (relation : Store Description → Store Description → Prop) (tree : Tree) :
    Prop :=
  ∀ {before after found}, (preview tree).run before = (.ok found, after) → relation before after

/-- Visiting parts keeps what each of them keeps. -/
theorem Visited.keeps (chains : Store.Chains relation) {parts : List Tree}
    {before after : Store Description} (visited : Visited parts before after)
    (keep : ∀ part ∈ parts, part.PreviewKeeps relation) : relation before after := by
  -- The induction is over the visits, each of which starts where the one before ended.
  induction visited with
  | nil store => exact chains.refl store
  | cons ran visited ih =>
    obtain ⟨here, others⟩ := List.forall_mem_cons.mp keep
    exact chains.trans (here ran) (ih others)

/-- Gathering clauses keeps what each of their guards keeps. -/
theorem Gathered.keeps (chains : Store.Chains relation) {clauses : List (Tree × Tree)}
    {branches : List (Table Description)} {before after : Store Description}
    (gathered : Gathered clauses before branches after)
    (keep : ∀ clause ∈ clauses, clause.1.PreviewKeeps relation) : relation before after := by
  -- Branches leave nothing on the layer, so only the guards count.
  induction gathered with
  | nil store => exact chains.refl store
  | cons guarded branched gathered ih =>
    obtain ⟨here, others⟩ := List.forall_mem_cons.mp keep
    exact chains.trans (here guarded) (ih others)

namespace Store.KeptByAssign

variable (kept : Store.KeptByAssign relation)

include kept

/-- What needs no variables changes none. -/
theorem lift {α : Type} (result : Except Fault α) : Keeps relation (liftM result : Survey α) :=
  kept.refl

/-- Two computations in a row keep what both of them keep. -/
theorem bind {α β : Type} {first : Survey α} {rest : α → Survey β} (here : Keeps relation first)
    (onward : ∀ result, Keeps relation (rest result)) : Keeps relation (first >>= rest) :=
  Keeps.bind kept.trans here onward

/-- Describing a variable assigns to it once, or stops before. -/
theorem describe (name : String) (given : Description) :
    Keeps relation (TrialScript.describe name given) :=
  kept.bind kept.refl fun _ => kept.bind (kept.lift _) fun merged =>
    kept.bind (fun store => kept.assign store name merged) fun _ => kept.refl

/-- Joining branches assigns one name after the other. -/
theorem assignJoined (collected : Table (List Description)) :
    Keeps relation (TrialScript.assignJoined collected) := by
  -- The induction is over the assignments.
  induction collected with
  | nil => exact kept.refl
  | cons entry rest ih =>
    rw [TrialScript.assignJoined]
    exact kept.bind (kept.lift _) fun joined =>
      kept.bind (fun store => kept.assign store _ joined) fun _ => ih

/-- Items keep what each of them keeps. -/
theorem previewItems {items : List Tree} (each : ∀ item ∈ items, Keeps relation (preview item)) :
    Keeps relation (TrialScript.previewItems items) := by
  -- The induction is on the items, which are described one by one.
  induction items with
  | nil => exact kept.refl
  | cons item rest ih =>
    obtain ⟨here, others⟩ := List.forall_mem_cons.mp each
    rw [TrialScript.previewItems]
    exact kept.bind here fun _ => kept.bind (ih others) fun _ => kept.refl

/-- A branch leaves the layers below as they were, whether or not it stops. -/
theorem inBranch (branch : Survey Description) : Keeps relation (TrialScript.inBranch branch) := by
  intro store
  rw [run_inBranch]
  cases branch.run store.push with
  | mk outcome inner => cases outcome <;> exact kept.refl store

/-- Clauses keep what their guards keep, since branches leave nothing on the layer. -/
theorem previewClauses {clauses : List (Tree × Tree)}
    (each : ∀ clause ∈ clauses, Keeps relation (preview clause.1)) :
    Keeps relation (TrialScript.previewClauses clauses) := by
  -- The induction is on the clauses.
  induction clauses with
  | nil => exact kept.refl
  | cons clause rest ih =>
    obtain ⟨here, others⟩ := List.forall_mem_cons.mp each
    rw [TrialScript.previewClauses]
    exact kept.bind here fun _ => kept.bind (kept.inBranch _) fun _ =>
      kept.bind (ih others) fun _ => kept.refl

/-- A preview keeps what assignments keep, also where it stops. -/
theorem preview (tree : Tree) : Keeps relation (TrialScript.preview tree) := by
  -- The induction is over the script; only assignments and conditions change anything themselves.
  induction tree using Tree.induction_parts with
  | step tree ih =>
    cases tree with
    | assign name value =>
      rw [TrialScript.preview]
      exact kept.bind (ih value List.mem_cons_self) fun given => kept.describe name given
    | cond clauses =>
      rw [TrialScript.preview]
      have guards := kept.previewClauses fun clause member =>
        ih clause.1 (Tree.guard_mem_parts member)
      exact kept.bind guards fun _ => kept.bind (kept.assignJoined _) fun _ => kept.refl
    | _ =>
      intro store
      rw [run_preview rfl (by simp)]
      refine kept.bind (kept.previewItems fun part member => ?_) (fun _ => kept.lift _) store
      exact ih part (Tree.mem_parts_of_mem_surveyed member)

end Store.KeptByAssign

/-- A preview with a result keeps what assignments keep. -/
theorem previewKeeps (kept : Store.KeptByAssign relation) (tree : Tree) :
    tree.PreviewKeeps relation := by
  intro before after found ran
  have keeps := kept.preview tree before
  rwa [ran] at keeps

end Kept
end TrialScript
