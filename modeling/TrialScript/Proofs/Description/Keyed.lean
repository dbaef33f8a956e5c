import TrialScript.Proofs.Description.Throughout

/-! Descriptions whose mappings name every field once: equality has no sides there. -/

namespace TrialScript.Description

/-- The mappings in a value, a limit or a bound name every field once. -/
abbrev Keyed.Here : Description → Prop
  | .atom value | .object value => value.Keyed
  | .range _ low high => low.Keyed ∧ high.Keyed
  | .select limit _ => limit.Keyed
  | .array _ | .union _ => True

/-- A description in which every value, limit and bound has mappings that name every field once. -/
abbrev Keyed : Description → Prop :=
  Throughout Keyed.Here

/-- Lists of descriptions that are equal one by one are so the other way around. -/
theorem sameItems_symm {lefts rights : List Description}
    (each : ∀ left ∈ lefts, ∀ right ∈ rights, left.same right = true → right.same left = true)
    (equal : sameItems lefts rights = true) : sameItems rights lefts = true := by
  -- The induction goes through both lists in step.
  rw [sameItems_iff] at equal ⊢
  induction equal with
  | nil => exact .nil
  | cons here _ ih =>
    refine .cons (each _ List.mem_cons_self _ List.mem_cons_self here) (ih ?_)
    intro left inLefts right inRights
    exact each left (List.mem_cons_of_mem _ inLefts) right (List.mem_cons_of_mem _ inRights)

/-- Where mappings name every field once, the order of the two sides does not matter. -/
theorem Keyed.same_symm {left right : Description} (keyedLeft : left.Keyed)
    (keyedRight : right.Keyed) (equal : left.same right = true) : right.same left = true := by
  -- Equal descriptions have one shape, so the induction on the left one is enough.
  induction keyedLeft generalizing right with
  | atom keyed =>
    cases keyedRight <;> simp only [same, Bool.false_eq_true] at equal
    next keyed' => exact Value.Keyed.sameAtomic_symm keyed keyed' equal
  | range keyed =>
    cases keyedRight <;>
      simp only [same, Bool.false_eq_true, Bool.and_eq_true, beq_iff_eq] at equal
    next keyed' =>
    obtain ⟨lowKeyed, highKeyed⟩ := keyed
    obtain ⟨lowKeyed', highKeyed'⟩ := keyed'
    simp only [same, Bool.and_eq_true, beq_iff_eq]
    obtain ⟨⟨kinds, lows⟩, highs⟩ := equal
    exact ⟨⟨kinds.symm, lowKeyed.equals_symm lowKeyed' lows⟩,
      highKeyed.equals_symm highKeyed' highs⟩
  | select keyed _ ih =>
    cases keyedRight <;> simp only [same, Bool.false_eq_true, Bool.and_eq_true] at equal
    -- Options are compared in both directions, each with the option at its place.
    next keyed' each' =>
    simp only [same, Bool.and_eq_true]
    exact ⟨Value.Keyed.equals_symm keyed keyed' equal.1,
      sameItems_symm (fun left inLefts right inRights => ih left inLefts (each' right inRights))
        equal.2⟩
  | array _ _ ih =>
    cases keyedRight <;> simp only [same, Bool.false_eq_true] at equal
    next each' =>
    exact sameItems_symm (fun left inLefts right inRights => ih left inLefts (each' right inRights))
      equal
  -- A mapping is compared as a whole, in which each field is named once.
  | object keyed =>
    cases keyedRight <;> simp only [same, Bool.false_eq_true] at equal
    next keyed' => exact Value.Keyed.equals_symm keyed keyed' equal
  | union _ _ ih =>
    cases keyedRight <;> simp only [same, Bool.false_eq_true] at equal
    next each' =>
    exact sameItems_symm (fun left inLefts right inRights => ih left inLefts (each' right inRights))
      equal

end TrialScript.Description
