import Mathlib.Data.List.Perm.Subperm
import TrialScript.Proofs.Stateful
import TrialScript.Proofs.Value.Order
import TrialScript.Value.Arithmetic

/-! Values whose mappings name every field once: equality has no sides there, and arithmetic stays there. -/

namespace TrialScript.Value

/-- A value in which every mapping names each of its fields once, as in every value that is read. -/
inductive Keyed : Value → Prop where
  | scalar (value : Scalar) : Keyed (.scalar value)
  | list {items : List Value} (each : ∀ item ∈ items, Keyed item) : Keyed (.list items)
  | dict {fields : List (String × Value)} (distinct : (Table.names fields).Nodup)
      (each : ∀ field ∈ fields, Keyed field.2) : Keyed (.dict fields)
  | date (day : Date) : Keyed (.date day)
  | datetime (moment : DateTime) : Keyed (.datetime moment)

section Symmetry

/-- Lists whose items are equal one by one are so the other way around. -/
theorem equalsItems_symm {lefts rights : List Value}
    (each : ∀ left ∈ lefts, ∀ right ∈ rights, left.equals right = true → right.equals left = true)
    (same : equalsItems lefts rights = true) : equalsItems rights lefts = true := by
  -- The induction goes through both lists in step.
  induction lefts generalizing rights with
  | nil =>
    cases rights with
    | nil => rfl
    | cons right rights => cases same
  | cons left lefts ih =>
    cases rights with
    | nil => cases same
    | cons right rights =>
      rw [equalsItems, Bool.and_eq_true] at same ⊢
      refine ⟨each _ List.mem_cons_self _ List.mem_cons_self same.1, ih ?_ same.2⟩
      intro x inLefts y inRights
      exact each x (List.mem_cons_of_mem _ inLefts) y (List.mem_cons_of_mem _ inRights)

/-- A mapping whose fields are all found in another of the same size has every field of the other. -/
theorem equalsFields_symm {lefts rights : List (String × Value)}
    (each : ∀ left ∈ lefts, ∀ right ∈ rights,
      left.2.equals right.2 = true → right.2.equals left.2 = true)
    (distinctLeft : (Table.names lefts).Nodup) (distinctRight : (Table.names rights).Nodup)
    (alike : lefts.length = rights.length) (same : equalsFields lefts rights = true) :
    equalsFields rights lefts = true := by
  rw [equalsFields_iff] at same ⊢
  intro right inRights
  -- As many distinct names as on the right are among those on the right, so none is missing.
  have named : ∀ {name : String} {fields : List (String × Value)},
      name ∈ Table.names fields ↔ ∃ field ∈ fields, field.1 = name := List.mem_map
  have among : Table.names lefts ⊆ Table.names rights := by
    intro name member
    obtain ⟨left, inLefts, rfl⟩ := named.mp member
    obtain ⟨other, found, -⟩ := same left inLefts
    exact named.mpr ⟨_, Table.mem_of_lookup? found, rfl⟩
  have all : Table.names rights ⊆ Table.names lefts := by
    have counted : (Table.names rights).length ≤ (Table.names lefts).length := by
      simp [Table.names, alike]
    exact ((List.subperm_of_subset distinctLeft among).perm_of_length_le counted).symm.subset
  obtain ⟨left, inLefts, sameName⟩ := named.mp (all (named.mpr ⟨right, inRights, rfl⟩))
  -- The field found for the left one is the right one itself, since its name is there once.
  obtain ⟨other, found, equal⟩ := same left inLefts
  have itself : other = right.2 := by
    rw [sameName, Table.lookup?_of_mem distinctRight inRights] at found
    exact (Option.some.inj found).symm
  subst itself
  refine ⟨left.2, ?_, each left inLefts right inRights equal⟩
  rw [← sameName]
  exact Table.lookup?_of_mem distinctLeft inLefts

/-- Where mappings name every field once, the order of the two sides does not matter. -/
theorem Keyed.equals_symm {x y : Value} (left : x.Keyed) (right : y.Keyed)
    (same : x.equals y = true) : y.equals x = true := by
  -- Values of different kinds are never equal, so the induction on the left one is enough.
  induction left generalizing y with
  | scalar =>
    cases y <;> simp only [equals, Bool.false_eq_true] at same
    exact Scalar.equals_symm same
  | list _ ih =>
    cases y <;> simp only [equals, Bool.false_eq_true] at same
    cases right with
    | list each =>
      exact equalsItems_symm (fun x inLefts y inRights => ih x inLefts (each y inRights)) same
  | dict distinct _ ih =>
    cases y <;> simp only [equals, Bool.false_eq_true] at same
    cases right with
    | dict distinct' each =>
      rw [Bool.and_eq_true, beq_iff_eq] at same
      rw [equals, Bool.and_eq_true, beq_iff_eq]
      -- The fields are compared by their names, which neither side repeats.
      refine ⟨same.1.symm, equalsFields_symm ?_ distinct distinct' same.1 same.2⟩
      exact fun x inLefts y inRights => ih x inLefts (each y inRights)
  | date day =>
    cases y <;> simp only [equals, Bool.false_eq_true, beq_iff_eq] at same
    simp [equals, same]
  | datetime moment =>
    cases y <;> simp only [equals, Bool.false_eq_true] at same
    exact DateTime.same_symm same

/-- Strict equality is symmetric where mappings name every field once. -/
theorem Keyed.sameAtomic_symm {x y : Value} (left : x.Keyed) (right : y.Keyed)
    (same : x.sameAtomic y = true) : y.sameAtomic x = true := by
  -- Both halves of strict equality are symmetric on their own.
  rw [sameAtomic_iff] at same ⊢
  exact ⟨left.equals_symm right same.1, same.2.symm⟩

end Symmetry

section Arithmetic

variable {left right : Value}

/-- Calculating with numbers gives a number. -/
theorem keyed_calculate (function : Number → Number → Except Fault Number) :
    Gives Keyed (calculate function left right) := by
  unfold calculate
  split
  · exact .bind (.any _) fun number _ => .ok (.scalar _)
  · exact .error _

/-- A list as often as a count says has the items of the list. -/
theorem keyed_repeatItems {count : Int} {items : List Value} (each : ∀ item ∈ items, item.Keyed) :
    Gives (fun repeated => ∀ item ∈ repeated, item.Keyed) (repeatItems count items) := by
  -- Nothing repeated is nothing, and every copy of the list has the same items.
  refine .bind (.any _) fun times _ => ?_
  dsimp only
  split
  · exact .ok fun item member => absurd member List.not_mem_nil
  · split
    · exact .error .noRoom
    · refine .ok fun item member => ?_
      obtain ⟨copy, inCopies, inCopy⟩ := List.mem_flatten.mp member
      have same : copy = items := List.eq_of_mem_replicate inCopies
      exact each item (same ▸ inCopy)

/-- What is repeated has the parts that it had. -/
theorem Keyed.repeatBy {count repeated : Value} (keyed : repeated.Keyed) :
    Gives Keyed (Value.repeatBy count repeated) := by
  -- Only texts and lists can be repeated.
  unfold Value.repeatBy
  split
  · split
    · exact .bind (.any _) fun text _ => .ok (.scalar _)
    · exact .error _
  · split
    · cases keyed with
      | list each => exact .bind (keyed_repeatItems each) fun items each => .ok (.list each)
    · exact .error _
  · exact .error _

/-- One of two values is chosen, if they have an order. -/
theorem gives_whenOrdered {good : Value → Prop} {compared : Option Bool} (first : good left)
    (second : good right) :
    Gives good (whenOrdered (compared.map fun chosen => if chosen then right else left)) := by
  unfold whenOrdered
  split
  · next choice => exact .ok (of_chosen choice first second)
  · exact .error _

/-- Two lists in a row have the items of both. -/
theorem Keyed.add (first : left.Keyed) (second : right.Keyed) : Gives Keyed (left.add right) := by
  -- Only a sum of two lists has parts, and those are the items of both.
  unfold Value.add
  split
  · exact .ok (.scalar _)
  · cases first with
    | list each =>
      cases second with
      | list each' => exact .ok (.list (List.forall_mem_append.mpr ⟨each, each'⟩))
  · exact keyed_calculate _

/-- A text or a list on either side is repeated by the other one. -/
theorem Keyed.multiply (first : left.Keyed) (second : right.Keyed) :
    Gives Keyed (left.multiply right) := by
  -- Only one of the two can be repeated; everything else is arithmetic.
  unfold Value.multiply
  split
  · exact first.repeatBy
  · exact first.repeatBy
  · exact second.repeatBy
  · exact second.repeatBy
  · exact keyed_calculate _

/-- A remainder is a number. -/
theorem keyed_remainder : Gives Keyed (left.remainder right) := by
  -- The split is on which of the two count as numbers; over zero the dividend need not.
  unfold remainder
  split
  · exact .bind (.any _) fun number _ => .ok (.scalar _)
  · split
    · exact .ok (.scalar _)
    · exact .error _
  · exact .bind (.any _) fun _ _ => .error _
  · exact .error _

/-- Arithmetic makes no mapping, so where all name every field once its results do. -/
theorem Keyed.onValues {function : Arithmetic} (first : left.Keyed) (second : right.Keyed) :
    Gives Keyed (function.onValues left right) := by
  -- One case for each function; the extremes give one of their operands.
  cases function with
  | add => exact first.add second
  | multiply => exact first.multiply second
  | subtract | divide => exact keyed_calculate _
  | remainder => exact keyed_remainder
  | least | greatest => exact gives_whenOrdered first second

end Arithmetic
end TrialScript.Value
