import Mathlib.Data.List.Forall2
import TrialScript.Proofs.Value.Keyed
import TrialScript.Proofs.Value.Places

/-! Equality place by place: what two equal values have at the same places. -/

namespace TrialScript.Value

/-- Whether two values can stand at one place of equal ones: both lists, both mappings, or equal
without parts, and where the comparison is strict both truth values or neither. -/
def Faces (strict : Prop) : Value → Value → Prop
  | .list _, .list _ | .dict _, .dict _ => True
  | left, right => left.equals right = true ∧
      (strict → ((∃ truth, left = .bool truth) ↔ ∃ truth, right = .bool truth))

/-- Values that have the same places, with values that face each other at every one of them; the
comparison is strict, if it is so at all, where only items of lists lead to a place. -/
def AlikeIf (strict : Prop) (left right : Value) : Prop :=
  ∀ path : List Segment,
    Option.Rel (Faces (strict ∧ ∀ key, .field key ∉ path)) (left.part? path) (right.part? path)

section Places

/-- Parts of two values are related at every place exactly if the values are there together, and
are related at every place if so. -/
theorem rel_parts {related : List Segment → Value → Value → Prop} {left right : Option Value} :
    (∀ path, Option.Rel (related path) (left.bind fun value => value.part? path)
        (right.bind fun value => value.part? path)) ↔
      Option.Rel (fun left right => ∀ path,
        Option.Rel (related path) (left.part? path) (right.part? path)) left right := by
  -- The values themselves stand at the place that no step leads to.
  cases left with
  | none =>
    cases right with
    | none => exact ⟨fun _ => .none, fun _ _ => .none⟩
    | some right =>
      refine ⟨fun each => ?_, fun both => nomatch both⟩
      have here := each []
      simp only [Option.bind_none, Option.bind_some, part?_nil] at here
      cases here
  | some left =>
    cases right with
    | none =>
      refine ⟨fun each => ?_, fun both => nomatch both⟩
      have here := each []
      simp only [Option.bind_none, Option.bind_some, part?_nil] at here
      cases here
    | some right =>
      exact ⟨fun each => .some each, fun | .some each => each⟩

variable {strict : Prop} {left right : Value}

/-- Alike values face each other themselves. -/
theorem AlikeIf.faces (alike : AlikeIf strict left right) : Faces strict left right := by
  have here := alike []
  simp only [part?_nil, List.not_mem_nil, not_false_eq_true, implies_true, and_true] at here
  cases here with
  | some faces => exact faces

/-- A value without parts is alike exactly what it equals, strictly so if the comparison is. -/
theorem alikeIf_leaf (noList : ∀ items, left ≠ .list items)
    (noDict : ∀ fields, left ≠ .dict fields) :
    AlikeIf strict left right ↔ left.equals right = true ∧
      (strict → ((∃ truth, left = .bool truth) ↔ ∃ truth, right = .bool truth)) := by
  have leaf : Faces strict left right ↔ left.equals right = true ∧
      (strict → ((∃ truth, left = .bool truth) ↔ ∃ truth, right = .bool truth)) := by
    unfold Faces
    split
    · exact absurd rfl (noList _)
    · exact absurd rfl (noDict _)
    · rfl
  rw [← leaf]
  refine ⟨AlikeIf.faces, fun faces path => ?_⟩
  cases path with
  | nil =>
    simp only [part?_nil, List.not_mem_nil, not_false_eq_true, implies_true, and_true]
    exact .some faces
  | cons segment path =>
    -- What equals a value without parts has none either.
    have noParts : left.part? (segment :: path) = none ∧ right.part? (segment :: path) = none := by
      have same := (leaf.mp faces).1
      cases left <;> cases right <;> simp_all [equals, part?]
    rw [noParts.1, noParts.2]
    exact .none

/-- Lists are alike exactly if their items are, and a step to an item keeps the comparison. -/
theorem alikeIf_list {lefts rights : List Value} :
    AlikeIf strict (.list lefts) (.list rights) ↔
      ∀ index : Nat, Option.Rel (AlikeIf strict) lefts[index]? rights[index]? := by
  have further : ∀ (index : Nat) path, (∀ key, Segment.field key ∉ .item index :: path) ↔
      ∀ key, Segment.field key ∉ path := by
    simp
  -- Every place in a list other than the list itself is a place in one of its items.
  constructor
  · intro alike index
    refine rel_parts.mp fun path => ?_
    have there := alike (.item index :: path)
    rwa [further] at there
  · intro each path
    cases path with
    | nil =>
      rw [part?_nil, part?_nil]
      exact .some trivial
    | cons segment path =>
      cases segment with
      | item index =>
        rw [further]
        exact rel_parts.mpr (each index) path
      | field key => exact .none

/-- Mappings are alike exactly if their fields are, and the comparison is no longer strict there. -/
theorem alikeIf_dict {lefts rights : Table Value} :
    AlikeIf strict (.dict lefts) (.dict rights) ↔
      ∀ key, Option.Rel (AlikeIf False) (lefts.lookup? key) (rights.lookup? key) := by
  have further : ∀ key path, (strict ∧ ∀ other, Segment.field other ∉ .field key :: path) ↔
      False ∧ ∀ other, Segment.field other ∉ path := by
    intro key path
    exact iff_of_false (fun both => both.2 key List.mem_cons_self) fun both => both.1
  -- Every place in a mapping other than the mapping itself is a place in one of its fields.
  constructor
  · intro alike key
    refine rel_parts.mp fun path => ?_
    have there := alike (.field key :: path)
    rwa [further] at there
  · intro each path
    cases path with
    | nil =>
      rw [part?_nil, part?_nil]
      exact .some trivial
    | cons segment path =>
      cases segment with
      | item index => exact .none
      | field key =>
        rw [further]
        exact rel_parts.mpr (each key) path

end Places

section Equality

/-- Parts that may be missing are related in one way exactly if they are in another that is the
same for those that are there. -/
theorem rel_congr {α : Type} {related related' : α → α → Prop} {left right : Option α}
    (same : ∀ x ∈ left, ∀ y ∈ right, (related x y ↔ related' x y)) :
    Option.Rel related left right ↔ Option.Rel related' left right := by
  cases left <;> cases right <;> simp_all

/-- Two lists are related item by item exactly if they are at every index. -/
theorem forall₂_iff_rel {α : Type} {related : α → α → Prop} {lefts rights : List α} :
    List.Forall₂ related lefts rights ↔
      ∀ index : Nat, Option.Rel related lefts[index]? rights[index]? := by
  -- The induction goes through both lists in step.
  induction lefts generalizing rights with
  | nil =>
    cases rights with
    | nil => simp
    | cons right rights =>
      simp only [List.forall₂_nil_left_iff, reduceCtorEq, false_iff, not_forall]
      exact ⟨0, fun both => nomatch both⟩
  | cons left lefts ih =>
    cases rights with
    | nil =>
      simp only [List.forall₂_nil_right_iff, reduceCtorEq, false_iff, not_forall]
      exact ⟨0, fun both => nomatch both⟩
    | cons right rights =>
      rw [List.forall₂_cons, ih]
      constructor
      · rintro ⟨here, later⟩ (_ | index)
        · exact .some here
        · exact later index
      · intro each
        refine ⟨?_, fun index => each (index + 1)⟩
        cases each 0 with
        | some here => exact here

/-- Lists are equal exactly if they are item by item. -/
theorem equalsItems_iff {lefts rights : List Value} :
    equalsItems lefts rights = true ↔
      List.Forall₂ (fun left right => left.equals right = true) lefts rights := by
  -- The induction goes through both lists in step.
  induction lefts generalizing rights with
  | nil => cases rights <;> simp [equalsItems]
  | cons left lefts ih => cases rights <;> simp [equalsItems, ih]

/-- Mappings are equal exactly if they have the same names with equal values. -/
theorem dict_equals_iff {lefts rights : Table Value} (keyed : (dict lefts).Keyed)
    (keyed' : (dict rights).Keyed) :
    (dict lefts).equals (.dict rights) = true ↔ ∀ key,
      Option.Rel (fun left right => left.equals right = true) (lefts.lookup? key)
        (rights.lookup? key) := by
  constructor
  · intro same key
    have back := keyed.equals_symm keyed' same
    rw [equals, Bool.and_eq_true, equalsFields_iff] at same back
    cases found : lefts.lookup? key with
    | some left =>
      obtain ⟨right, found', equal⟩ := same.2 _ (Table.mem_of_lookup? found)
      rw [found']
      exact .some equal
    | none =>
      cases found' : rights.lookup? key with
      | none => exact .none
      | some right =>
        -- A name on the right is on the left as well, as equality has no sides.
        obtain ⟨left, there, -⟩ := back.2 _ (Table.mem_of_lookup? found')
        rw [found] at there
        cases there
  · intro each
    cases keyed with
    | dict distinct _ =>
    cases keyed' with
    | dict distinct' _ =>
    -- With distinct names the two mappings have as many fields as names.
    have sameNames : (Table.names lefts).Perm (Table.names rights) := by
      refine (List.perm_ext_iff_of_nodup distinct distinct').mpr fun key => ?_
      have here := each key
      rw [← Table.has_iff_mem_names, ← Table.has_iff_mem_names, Table.has, Table.has]
      generalize lefts.lookup? key = left, rights.lookup? key = right at here ⊢
      cases here <;> simp
    rw [equals, Bool.and_eq_true, beq_iff_eq, equalsFields_iff]
    refine ⟨by simpa [Table.names] using sameNames.length_eq, fun field member => ?_⟩
    have here := each field.1
    rw [Table.lookup?_of_mem distinct member] at here
    generalize Table.lookup? field.1 rights = found at here ⊢
    cases here with
    | some equal => exact ⟨_, rfl, equal⟩

/-- Values are equal exactly if they are alike without a strict comparison anywhere. -/
theorem equals_iff_alikeIf {left right : Value} (keyed : left.Keyed) (keyed' : right.Keyed) :
    left.equals right = true ↔ AlikeIf False left right := by
  -- The induction is on the left value; without parts both sides compare the values themselves.
  induction left using induction_parts generalizing right with
  | scalar | date | datetime => simp [alikeIf_leaf]
  | list items ih =>
    cases right with
    | list others =>
      cases keyed with
      | list each =>
      cases keyed' with
      | list each' =>
      rw [equals, equalsItems_iff, forall₂_iff_rel, alikeIf_list]
      refine forall_congr' fun index => rel_congr fun left found right found' => ?_
      have member := List.mem_of_getElem? found
      exact ih left member (each left member) (each' right (List.mem_of_getElem? found'))
    -- Values of different kinds are apart at the place itself.
    | _ =>
      refine iff_of_false (by simp [equals]) fun alike => ?_
      simpa [Faces, equals] using alike.faces
  | dict fields ih =>
    cases right with
    | dict others =>
      rw [dict_equals_iff keyed keyed', alikeIf_dict]
      cases keyed with
      | dict _ each =>
      cases keyed' with
      | dict _ each' =>
      refine forall_congr' fun key => rel_congr fun left found right found' => ?_
      have member := Table.mem_of_lookup? found
      exact ih _ member (each _ member) (each' _ (Table.mem_of_lookup? found'))
    | _ =>
      refine iff_of_false (by simp [equals]) fun alike => ?_
      simpa [Faces, equals] using alike.faces

end Equality
end TrialScript.Value
