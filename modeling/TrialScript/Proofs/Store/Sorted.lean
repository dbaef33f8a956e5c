import Mathlib.Data.List.Sort
import Mathlib.Data.String.Basic
import TrialScript.Proofs.Store
import TrialScript.Proofs.Store.Mapped

/-! Tables in order of name: one table for all orders of the same entries. -/

namespace TrialScript.Table

variable {α β : Type}

section Search

/-- An inserted entry is the one of its name, and every other name keeps its own. -/
theorem lookup?_insertByName (name : String) (entry : String × α) (table : Table α) :
    lookup? name (insertByName entry table) =
      if entry.1 = name then some entry.2 else lookup? name table := by
  -- The insertion passes smaller names only, none of which is the name of the entry.
  induction table with
  | nil => rfl
  | cons next rest ih =>
    obtain ⟨key, value⟩ := next
    rw [insertByName]
    split
    · next smaller =>
      by_cases same : key = name
      · subst same
        simp only [lookup?, if_pos, if_neg (ne_of_gt smaller)]
      · simp only [lookup?, if_neg same, ih]
    · rfl

/-- In order of name a table finds what it found before. -/
theorem lookup?_sortByName (name : String) (table : Table α) :
    lookup? name (sortByName table) = lookup? name table := by
  induction table with
  | nil => rfl
  | cons entry rest ih => rw [sortByName, lookup?_insertByName, ih, lookup?]

end Search

section Order

/-- Names that come one after the other, of which one may be there several times. -/
def Sorted (table : Table α) : Prop :=
  table.Pairwise fun first second => first.1 ≤ second.1

/-- Inserting adds the entry. -/
theorem insertByName_perm (entry : String × α) (table : Table α) :
    (insertByName entry table).Perm (entry :: table) := by
  -- By induction on the table: the entry passes the smaller ones and stops.
  induction table with
  | nil => exact .refl _
  | cons next rest ih =>
    rw [insertByName]
    split
    · exact (ih.cons next).trans (.swap entry next rest)
    · exact .refl _

/-- Sorting only changes the order of the entries. -/
theorem sortByName_perm (table : Table α) : (sortByName table).Perm table := by
  induction table with
  | nil => exact .refl _
  | cons entry rest ih => exact (insertByName_perm entry _).trans (ih.cons entry)

/-- An entry is inserted where the names stay in order. -/
theorem Sorted.insertByName {table : Table α} (sorted : table.Sorted) (entry : String × α) :
    (insertByName entry table).Sorted := by
  induction table with
  | nil => exact List.pairwise_singleton _ _
  | cons next rest ih =>
    obtain ⟨least, sortedRest⟩ := List.pairwise_cons.mp sorted
    rw [Table.insertByName]
    split
    · next smaller =>
      -- The passed name is below that of the entry, as it was below all names behind it.
      refine List.pairwise_cons.mpr ⟨fun later member => ?_, ih sortedRest⟩
      rcases List.mem_cons.mp ((insertByName_perm entry rest).mem_iff.mp member) with rfl | inRest
      · exact le_of_lt smaller
      · exact least later inRest
    · next notSmaller =>
      refine List.pairwise_cons.mpr ⟨fun later member => ?_, sorted⟩
      have first : entry.1 ≤ next.1 := not_lt.mp notSmaller
      rcases List.mem_cons.mp member with rfl | inRest
      · exact first
      · exact first.trans (least later inRest)

/-- The entries come in order of name. -/
theorem sorted_sortByName (table : Table α) : (sortByName table).Sorted := by
  induction table with
  | nil => exact .nil
  | cons entry rest ih => exact ih.insertByName entry

/-- Entries that are in order of name stay as they are. -/
theorem Sorted.sortByName_eq {table : Table α} (sorted : table.Sorted) :
    sortByName table = table := by
  induction table with
  | nil => rfl
  | cons entry rest ih =>
    obtain ⟨least, sortedRest⟩ := List.pairwise_cons.mp sorted
    rw [sortByName, ih sortedRest]
    -- No name behind the entry is smaller, so it is inserted in front.
    cases rest with
    | nil => rfl
    | cons next rest => rw [Table.insertByName, if_neg (not_lt.mpr (least next List.mem_cons_self))]

/-- Sorting keeps names different. -/
theorem nodup_names_sortByName {table : Table α} (distinct : table.names.Nodup) :
    (sortByName table).names.Nodup :=
  ((sortByName_perm table).map Prod.fst).nodup_iff.mpr distinct

/-- Tables of different names that find the same are the same in order of name. -/
theorem sortByName_eq_of_lookup? {first second : Table α} (distinct : first.names.Nodup)
    (distinct' : second.names.Nodup)
    (same : ∀ name, first.lookup? name = second.lookup? name) :
    sortByName first = sortByName second := by
  -- Both are the entries of either table in order, and different names have only one order.
  have entries : first.Perm second := perm_of_lookup? distinct distinct' same
  have alike : (sortByName first).Perm (sortByName second) :=
    ((sortByName_perm first).trans entries).trans (sortByName_perm second).symm
  have ordered : (sortByName first).Pairwise fun one other => one.1 ≤ other.1 :=
    sorted_sortByName first
  refine List.Perm.eq_of_pairwise ?_ ordered (sorted_sortByName second) alike
  intro one other inFirst inSecond before after
  have sameName : one.1 = other.1 := le_antisymm before after
  have found := lookup?_of_mem (nodup_names_sortByName distinct) inFirst
  have found' := lookup?_of_mem (nodup_names_sortByName distinct') inSecond
  rw [lookup?_sortByName] at found found'
  rw [same, sameName, found'] at found
  exact Prod.ext sameName (Option.some.inj found).symm

end Order

/-- Mapping the values of sorted entries is sorting the entries with mapped values. -/
theorem mapValues_sortByName (form : α → β) (table : Table α) :
    (sortByName table).mapValues form = sortByName (table.mapValues form) := by
  -- Only names decide where an entry is inserted, and mapping keeps them.
  have inserted : ∀ (entry : String × α) (table : Table α),
      (insertByName entry table).mapValues form =
        insertByName (entry.1, form entry.2) (table.mapValues form) := by
    intro entry table
    induction table with
    | nil => rfl
    | cons next rest ih =>
      simp only [Table.insertByName, mapValues, List.map_cons] at ih ⊢
      split
      · rw [List.map_cons, ih]
      · rfl
  induction table with
  | nil => rfl
  | cons entry rest ih =>
    rw [sortByName, inserted, ih]
    rfl

end TrialScript.Table
