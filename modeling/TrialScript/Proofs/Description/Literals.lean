import TrialScript.Proofs.Description.Normal
import TrialScript.Proofs.Value.Alike

/-! Literals with one description: which they are, and that merging keeps all others apart. -/

namespace TrialScript.Description

section Same

/-- A literal without parts has itself as its description. -/
theorem ofLiteral_leaf {value : Value} (noList : ∀ items, value ≠ .list items)
    (noDict : ∀ fields, value ≠ .dict fields) : ofLiteral value = .atom value := by
  -- The description splits on lists and mappings, and keeps everything else.
  unfold ofLiteral
  split
  · exact absurd rfl (noList _)
  · exact absurd rfl (noDict _)
  · rfl

/-- Literals have equal descriptions exactly if they are alike, strictly so along lists alone. -/
theorem same_ofLiteral_iff {left right : Value} (keyed : left.Keyed) (keyed' : right.Keyed) :
    (ofLiteral left).same (ofLiteral right) = true ↔ Value.AlikeIf True left right := by
  have leaf : ∀ {left right : Value}, (∀ items, left ≠ .list items) →
      (∀ fields, left ≠ .dict fields) →
      ((ofLiteral left).same (ofLiteral right) = true ↔ Value.AlikeIf True left right) := by
    intro left right noList noDict
    rw [Value.alikeIf_leaf noList noDict, ofLiteral_leaf noList noDict, true_imp_iff,
      ← Value.sameAtomic_iff]
    -- What has parts is described by no exact value, and equals no value without parts.
    cases right with
    | list | dict =>
      refine iff_of_false (by simp [ofLiteral, same]) ?_
      rw [Value.sameAtomic_iff]
      cases left <;> simp_all [Value.equals]
    | scalar | date | datetime => rfl
  -- The induction is on the left value; only lists pass the strict comparison on to their items.
  induction left using Value.induction_parts generalizing right with
  | scalar | date | datetime => exact leaf (by simp) (by simp)
  | list items ih =>
    cases right with
    | list others =>
      cases keyed with
      | list each =>
      cases keyed' with
      | list each' =>
      rw [ofLiteral, ofLiteral, ofLiterals_eq_map, ofLiterals_eq_map, same, sameItems_iff,
        List.forall₂_map_left_iff, List.forall₂_map_right_iff, Value.forall₂_iff_rel,
        Value.alikeIf_list]
      refine forall_congr' fun index => Value.rel_congr fun left found right found' => ?_
      have member := List.mem_of_getElem? found
      exact ih left member (each left member) (each' right (List.mem_of_getElem? found'))
    | _ =>
      refine iff_of_false (by simp [ofLiteral, same]) fun alike => ?_
      simpa [Value.Faces, Value.equals] using alike.faces
  | dict fields ih =>
    cases right with
    | dict others =>
      rw [ofLiteral, ofLiteral, same, Value.equals_iff_alikeIf keyed keyed', Value.alikeIf_dict,
        Value.alikeIf_dict]
    | _ =>
      refine iff_of_false (by simp [ofLiteral, same]) fun alike => ?_
      simpa [Value.Faces, Value.equals] using alike.faces

end Same

section Kept

/-- What is made of two descriptions is the first of two equal ones, and otherwise has the
alternatives of both. -/
def Keeps (left right made : Description) : Prop :=
  (left.same right = true → made = left) ∧
    (left.same right = false → made.leaves = left.leaves ++ right.leaves)

section Pairs

variable {left right : Description}

/-- A union of two known descriptions that are no unions keeps them apart unless they are equal. -/
theorem keeps_unionOf (symm : left.same right = right.same left)
    (alone : left.alternatives = [left]) (alone' : right.alternatives = [right]) :
    Keeps left right (unionOf [left, right]) := by
  -- The second one is added to the first unless it equals it.
  have opened : distinct ([left, right].flatMap alternatives) = addNew [left] right := by
    simp [alone, alone', distinct, addNew]
  rw [Keeps, unionOf, opened, addNew, List.any_cons, List.any_nil, Bool.or_false, ← symm]
  constructor
  · intro equal
    rw [if_pos equal]
  · intro apart
    simp [apart, leaves, leavesOf]

/-- A choice between two descriptions that are not equal keeps them apart. -/
theorem keeps_oneOf : Keeps left right (if left.same right then left else oneOf [left, right]) := by
  -- What equals the left one is dropped, and anything else stands beside it.
  constructor
  · intro equal
    rw [if_pos equal]
  · intro apart
    simp [apart, leaves_oneOf, leavesOf]

end Pairs

variable {left right : Value}

/-- Only the literal null says nothing. -/
theorem ofLiteral_eq_unknown {value : Value} : ofLiteral value = .unknown ↔ value = .null := by
  cases value <;> simp [ofLiteral]

/-- Literals are known, or null, and never unions. -/
theorem alternatives_ofLiteral {value : Value} (known : value ≠ .null) :
    (ofLiteral value).alternatives = [ofLiteral value] := by
  refine alternatives_eq_singleton (mt ofLiteral_eq_unknown.mp known) ?_
  cases value <;> simp [ofLiteral]

/-- The order of two literals does not matter for whether their descriptions are equal. -/
theorem same_ofLiteral_symm (keyed : left.Keyed) (keyed' : right.Keyed) :
    (ofLiteral left).same (ofLiteral right) = (ofLiteral right).same (ofLiteral left) := by
  have described := (sound_ofLiteral keyed).2
  have described' := (sound_ofLiteral keyed').2
  rw [Bool.eq_iff_iff]
  exact ⟨described.same_symm described', described'.same_symm described⟩

/-- Beside null every literal is kept as it is. -/
theorem keeps_null (value : Value) :
    Keeps (ofLiteral .null) (ofLiteral value) (ofLiteral value) ∧
      Keeps (ofLiteral value) (ofLiteral .null) (ofLiteral value) := by
  -- Only null equals null; beside it any other literal is the only alternative.
  refine ⟨⟨fun equal => ?_, fun _ => rfl⟩, fun _ => rfl, fun _ => (List.append_nil _).symm⟩
  have null : value = .null := by
    cases value <;> simp only [ofLiteral, same, Bool.false_eq_true] at equal
    all_goals exact Value.eq_null_of_null_equals (Value.sameAtomic_iff.mp equal).1
  rw [null]

/-- Two literals that are not null merge into a union, or into a choice if they have no parts. -/
theorem merge_known (known : left ≠ .null) (known' : right ≠ .null) :
    merge (ofLiteral left) (ofLiteral right) =
        .ok (unionOf [ofLiteral left, ofLiteral right]) ∨
      merge (ofLiteral left) (ofLiteral right) =
        .ok (if (ofLiteral left).same (ofLiteral right) then ofLiteral left
          else oneOf [ofLiteral left, ofLiteral right]) := by
  -- Literals are exact values, lists of descriptions and mappings, so few cases of merging remain.
  cases left with
  | list | dict => cases right <;> simp_all [ofLiteral, merge]
  | scalar | date | datetime => cases right <;> simp_all [ofLiteral, merge, same]

/-- Merging two literals keeps them apart unless their descriptions are equal. -/
theorem merge_ofLiteral (keyed : left.Keyed) (keyed' : right.Keyed) :
    ∃ merged, merge (ofLiteral left) (ofLiteral right) = .ok merged ∧
      Keeps (ofLiteral left) (ofLiteral right) merged := by
  -- Null says nothing; two other literals make a union, or a choice where neither has parts.
  by_cases null : left = .null
  · subst null
    exact ⟨_, by simp [ofLiteral, merge], (keeps_null right).1⟩
  by_cases null' : right = .null
  · subst null'
    refine ⟨_, ?_, (keeps_null left).2⟩
    unfold merge
    split <;> simp_all [ofLiteral]
  have pair := keeps_unionOf (same_ofLiteral_symm keyed keyed') (alternatives_ofLiteral null)
    (alternatives_ofLiteral null')
  rcases merge_known null null' with merged | merged
  · exact ⟨_, merged, pair⟩
  · exact ⟨_, merged, keeps_oneOf⟩

/-- Joining two literals keeps them apart unless their descriptions are equal. -/
theorem join_ofLiteral (keyed : left.Keyed) (keyed' : right.Keyed) :
    ∃ joined, join [ofLiteral left, ofLiteral right] = .ok joined ∧
      Keeps (ofLiteral left) (ofLiteral right) joined := by
  -- The fold starts from nothing known, so that the first literal is what the second joins.
  have first : join [ofLiteral left, ofLiteral right] =
      joinStep (ofLiteral left) (ofLiteral right) := by
    have start : joinStep .unknown (ofLiteral left) = .ok (ofLiteral left) := by
      rw [joinStep, merge]
      rfl
    rw [join, List.foldlM_cons, start]
    exact bind_pure (joinStep (ofLiteral left) (ofLiteral right))
  rw [first, joinStep]
  split
  · exact merge_ofLiteral keyed keyed'
  · next exact =>
    -- Two known exact values stay apart as variants.
    have null : left ≠ .null := by
      rintro rfl
      simp [ofLiteral, isUnknown] at exact
    have null' : right ≠ .null := by
      rintro rfl
      simp [ofLiteral, isUnknown] at exact
    exact ⟨_, rfl, keeps_unionOf (same_ofLiteral_symm keyed keyed') (alternatives_ofLiteral null)
      (alternatives_ofLiteral null')⟩

/-- Two literals have equal descriptions exactly if they have the same places with equal values at
them, and truth values at the same ones of those that only items of lists lead to. Merging and
joining keep one of two such literals, and all alternatives of any others. -/
theorem literals_apart (keyed : left.Keyed) (keyed' : right.Keyed) :
    ((ofLiteral left).same (ofLiteral right) = true ↔ left.AlikeIf True right) ∧
      ∃ merged joined, merge (ofLiteral left) (ofLiteral right) = .ok merged ∧
        join [ofLiteral left, ofLiteral right] = .ok joined ∧
        (left.AlikeIf True right → merged = ofLiteral left ∧ joined = ofLiteral left) ∧
        (¬ left.AlikeIf True right →
          merged.leaves = (ofLiteral left).leaves ++ (ofLiteral right).leaves ∧
            joined.leaves = (ofLiteral left).leaves ++ (ofLiteral right).leaves) := by
  -- Equal descriptions are alike literals, and the merge and the join go by the descriptions.
  have equal := same_ofLiteral_iff keyed keyed'
  obtain ⟨merged, merges, same, apart⟩ := merge_ofLiteral keyed keyed'
  obtain ⟨joined, joins, same', apart'⟩ := join_ofLiteral keyed keyed'
  refine ⟨equal, merged, joined, merges, joins, ?_, ?_⟩
  · intro alike
    exact ⟨same (equal.mpr alike), same' (equal.mpr alike)⟩
  · intro unlike
    have differ := Bool.eq_false_iff.mpr (mt equal.mp unlike)
    exact ⟨apart differ, apart' differ⟩

/-- One and truth are one literal in a mapping, and two in a list. -/
theorem literals_apart_field :
    let number := Value.dict [("a", .int 1)]
    let truth := Value.dict [("a", .bool true)]
    number.Keyed ∧ truth.Keyed ∧ number.AlikeIf True truth ∧
      merge (ofLiteral number) (ofLiteral truth) = .ok (ofLiteral number) ∧
      join [ofLiteral number, ofLiteral truth] = .ok (ofLiteral number) ∧
      ¬ (Value.list [.int 1]).AlikeIf True (.list [.bool true]) := by
  -- Whether the literals are alike is read off their descriptions, by evaluation.
  intro number truth
  have field : ∀ value : Scalar, (Value.dict [("a", .scalar value)]).Keyed := by
    intro value
    refine .dict (List.nodup_singleton _) fun field member => ?_
    rw [List.mem_singleton.mp member]
    exact .scalar _
  have item : ∀ value : Scalar, (Value.list [.scalar value]).Keyed := by
    intro value
    refine .list fun item member => ?_
    rw [List.mem_singleton.mp member]
    exact .scalar _
  obtain ⟨equal, merged, joined, merges, joins, kept, -⟩ := literals_apart (field _) (field _)
  have alike : number.AlikeIf True truth := equal.mp (by decide +kernel)
  obtain ⟨rfl, rfl⟩ := kept alike
  refine ⟨field _, field _, alike, merges, joins, ?_⟩
  exact mt (literals_apart (item _) (item _)).1.mpr (by decide +kernel)

end Kept
end TrialScript.Description
