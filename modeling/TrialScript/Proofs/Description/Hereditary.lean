import TrialScript.Proofs.Description.Joining
import TrialScript.Proofs.Stateful

/-! Properties of descriptions that merging and joining keep, such as those that their parts have. -/

namespace TrialScript.Description

/-- A property of descriptions that goes to and comes from their parts, and that widening keeps. -/
structure Hereditary (holds : Description → Prop) : Prop where
  unknown : holds .unknown
  options : ∀ {limit : Value} {options : List Description}, holds (.select limit options) →
    ∀ option ∈ options, holds option
  oneOf : ∀ {options : List Description}, (∀ option ∈ options, holds option) →
    holds (oneOf options)
  variants : ∀ {variants : List Description}, holds (.union variants) →
    ∀ variant ∈ variants, holds variant
  union : ∀ {variants : List Description}, (∀ variant ∈ variants, holds variant) →
    holds (.union variants)
  widened : ∀ {kind : RangeKind} {low low' high high' : Value}, holds (.range kind low high) →
    holds (.range kind low' high') → ∃ least most,
      widen low low' high high' = .ok (least, most) ∧ holds (.range kind least most)

/-- A property of descriptions that merging keeps, wherever bounds have an order. -/
structure KeptByMerging (holds : Description → Prop) : Prop where
  unknown : holds .unknown
  options : ∀ {limit : Value} {options : List Description}, holds (.select limit options) →
    ∀ option ∈ options, holds option
  oneOf : ∀ {options : List Description}, (∀ option ∈ options, holds option) →
    holds (oneOf options)
  variants : ∀ {variants : List Description}, holds (.union variants) →
    ∀ variant ∈ variants, holds variant
  unionOf : ∀ {variants : List Description}, (∀ variant ∈ variants, holds variant) →
    holds (unionOf variants)
  widened : ∀ {kind : RangeKind} {low low' high high' least most : Value},
    holds (.range kind low high) → holds (.range kind low' high') →
    widen low low' high high' = .ok (least, most) → holds (.range kind least most)

/-- Bounds that are numbers widen to the smaller lower one and the larger upper one. -/
theorem widen_num (low low' high high' : Number) :
    widen (.num low) (.num low') (.num high) (.num high') =
      .ok (.num (low.least low'), .num (high.greatest high')) := by
  -- Numbers are compared as values in the same way as on their own.
  have lows : Value.before? (.num low') (.num low) = some (low'.less low) :=
    Value.before?_of_left rfl
  have highs : Value.before? (.num high) (.num high') = some (high.less high') :=
    Value.before?_of_left rfl
  simp only [widen, Value.least?, Value.greatest?, lows, highs, Option.map_some, Number.least,
    Number.greatest]
  cases low'.less low <;> cases high.less high' <;> rfl

/-- Two descriptions merge unless they are intervals of one kind whose bounds have no order. -/
theorem exists_merge {left right : Description}
    (ordered : ∀ kind low high low' high', left = .range kind low high →
      right = .range kind low' high' → ∃ bounds, widen low low' high high' = .ok bounds) :
    ∃ merged, merge left right = .ok merged := by
  -- The split follows the definition, in which only widening can fail.
  unfold merge
  split
  all_goals try exact ⟨_, rfl⟩
  next kind low high kind' low' high' =>
  split
  · next same =>
    subst same
    obtain ⟨bounds, widened⟩ := ordered kind low high low' high' rfl rfl
    rw [widened]
    exact ⟨_, rfl⟩
  · exact ⟨_, rfl⟩

namespace KeptByMerging

variable {holds : Description → Prop} (kept : KeptByMerging holds)

include kept

/-- A choice of one of some distinct options has the property if they do. -/
theorem oneOf_distinct {options : List Description} (each : ∀ option ∈ options, holds option) :
    holds (Description.oneOf (distinct options)) :=
  kept.oneOf fun option member => each option (mem_of_mem_distinct member)

/-- Two descriptions with the property merge into one that has it. -/
theorem merge {left right : Description} (holdsLeft : holds left) (holdsRight : holds right) :
    Gives holds (Description.merge left right) := by
  -- The split follows the definition, and each result is put together from parts of both sides.
  have both : ∀ variant ∈ [left, right], holds variant := by
    simp [holdsLeft, holdsRight]
  unfold Description.merge
  split
  · exact .ok holdsRight
  · exact .ok holdsLeft
  · -- Two exact values are one, or a choice of one of them.
    refine .ok ?_
    split
    · exact holdsLeft
    · exact kept.oneOf both
  · -- An exact value becomes one more option, on either side.
    have options := kept.options holdsRight
    refine .ok ?_
    split
    · exact kept.oneOf_distinct (List.forall_mem_cons.mpr ⟨holdsLeft, options⟩)
    · exact kept.unionOf both
  · have options := kept.options holdsLeft
    refine .ok ?_
    split
    · exact kept.oneOf_distinct (List.forall_mem_append.mpr ⟨options, by simp [holdsRight]⟩)
    · exact kept.unionOf both
  · next kind low high kind' low' high' =>
    -- Two intervals of one kind are widened into one.
    split
    · next same =>
      subst same
      intro merged made
      obtain ⟨bounds, widened, made⟩ := check_bind_ok made
      cases made
      exact kept.widened holdsLeft holdsRight widened
    · exact .ok (kept.unionOf both)
  · -- The options of both choices are put together.
    have options := List.forall_mem_append.mpr
      ⟨kept.options holdsLeft, kept.options holdsRight⟩
    refine .ok ?_
    split
    · exact kept.oneOf_distinct options
    · exact kept.unionOf both
  · -- A union takes in one more variant.
    have variants := kept.variants holdsLeft
    refine .ok ?_
    split
    · exact kept.unionOf (List.forall_mem_append.mpr ⟨variants, by simp [holdsRight]⟩)
    · exact kept.unionOf both
  · exact .ok (kept.unionOf both)

/-- One step of joining keeps the property. -/
theorem joinStep {left right : Description} (holdsLeft : holds left) (holdsRight : holds right) :
    Gives holds (Description.joinStep left right) := by
  unfold Description.joinStep
  split
  · exact kept.merge holdsLeft holdsRight
  · exact .ok (kept.unionOf (by simp [holdsLeft, holdsRight]))

/-- Descriptions with the property join into one that has it. -/
theorem join {branches : List Description} (each : ∀ branch ∈ branches, holds branch) :
    Gives holds (Description.join branches) :=
  -- The fold starts from what is unknown, and every step keeps the property.
  .foldlM (fun _ branch member found => kept.joinStep found (each branch member)) kept.unknown

end KeptByMerging

namespace Hereditary

variable {holds : Description → Prop} (hereditary : Hereditary holds)

include hereditary

/-- The variants that a description with the property stands for have it. -/
theorem of_mem_alternatives {description piece : Description} (here : holds description)
    (member : piece ∈ description.alternatives) : holds piece := by
  unfold alternatives at member
  -- What is unknown has no variant, a union has its own, and anything else is one itself.
  split at member
  · cases member
  · exact hereditary.variants here piece member
  · exact List.mem_singleton.mp member ▸ here

/-- The alternatives of a description with the property have it, at every depth. -/
theorem of_mem_leaves {description leaf : Description} (here : holds description)
    (member : leaf ∈ description.leaves) : holds leaf := by
  -- Only choices and unions have further leaves, which are those of their parts.
  induction description using induction_parts with
  | atom value =>
    by_cases known : value = .null
    · subst known
      cases member
    · rw [leaves_atom known, List.mem_singleton] at member
      exact member ▸ here
  -- A choice of several stands for itself, as its options are drawn together.
  | select limit options ih =>
    by_cases single : isSingle limit = true
    · rw [leaves_single single] at member
      obtain ⟨option, inside, ofOption⟩ := mem_leavesOf.mp member
      exact ih option inside (hereditary.options here option inside) ofOption
    · rw [leaves_several single, List.mem_singleton] at member
      exact member ▸ here
  | union variants ih =>
    obtain ⟨variant, inside, ofVariant⟩ := mem_leavesOf.mp member
    exact ih variant inside (hereditary.variants here variant inside) ofVariant
  | range | array | object => exact List.mem_singleton.mp member ▸ here

/-- Where the property leaves no bound undefined, the bounds of intervals can be ordered. -/
theorem ordered (defined : ∀ {kind : RangeKind} {low high : Value}, holds (.range kind low high) →
    low.Defined ∧ high.Defined) {description : Description} (here : holds description) :
    description.Ordered :=
  fun _ _ _ member => defined (hereditary.of_mem_leaves here member)

/-- A union has the property if its variants do. -/
theorem unionOf {variants : List Description} (each : ∀ variant ∈ variants, holds variant) :
    holds (Description.unionOf variants) := by
  -- A union keeps some of its variants, or of the variants inside them.
  have opened : ∀ kept ∈ distinct (variants.flatMap alternatives), holds kept := by
    intro kept member
    obtain ⟨variant, inside, ofVariant⟩ := List.mem_flatMap.mp (mem_of_mem_distinct member)
    exact hereditary.of_mem_alternatives (each variant inside) ofVariant
  unfold Description.unionOf
  split
  · exact hereditary.unknown
  · next variant one => exact opened variant (one ▸ List.mem_singleton_self variant)
  · exact hereditary.union opened

/-- A property that goes to and comes from parts is kept by merging. -/
theorem keptByMerging : KeptByMerging holds where
  unknown := hereditary.unknown
  options := hereditary.options
  oneOf := hereditary.oneOf
  variants := hereditary.variants
  unionOf := hereditary.unionOf
  widened := by
    -- The bounds have an order, so the ones that were found are those with the property.
    intro kind low low' high high' least most holdsLeft holdsRight found
    obtain ⟨least', most', widened, here⟩ := hereditary.widened holdsLeft holdsRight
    cases widened.symm.trans found
    exact here

/-- Two descriptions with the property merge into one that has it. -/
theorem merge {left right : Description} (holdsLeft : holds left) (holdsRight : holds right) :
    ∃ merged, Description.merge left right = .ok merged ∧ holds merged := by
  -- Bounds of intervals with the property have an order, so merging does not fail.
  obtain ⟨merged, made⟩ : ∃ merged, Description.merge left right = .ok merged := by
    refine exists_merge ?_
    rintro kind low high low' high' rfl rfl
    obtain ⟨least, most, widened, -⟩ := hereditary.widened holdsLeft holdsRight
    exact ⟨_, widened⟩
  exact ⟨merged, made, hereditary.keptByMerging.merge holdsLeft holdsRight merged made⟩

/-- One step of joining keeps the property. -/
theorem joinStep {left right : Description} (holdsLeft : holds left) (holdsRight : holds right) :
    ∃ joined, Description.joinStep left right = .ok joined ∧ holds joined := by
  unfold Description.joinStep
  split
  · exact hereditary.merge holdsLeft holdsRight
  · exact ⟨_, rfl, hereditary.unionOf (by simp [holdsLeft, holdsRight])⟩

/-- Descriptions with the property join into one that has it. -/
theorem join {branches : List Description} (each : ∀ branch ∈ branches, holds branch) :
    ∃ joined, Description.join branches = .ok joined ∧ holds joined := by
  -- The fold starts from what is unknown, and every step keeps the property.
  have general : ∀ {start : Description}, holds start →
      ∃ joined, branches.foldlM Description.joinStep start = .ok joined ∧ holds joined := by
    induction branches with
    | nil => exact fun here => ⟨_, rfl, here⟩
    | cons branch rest ih =>
      intro start holdsStart
      obtain ⟨here, others⟩ := List.forall_mem_cons.mp each
      obtain ⟨middle, made, holdsMiddle⟩ := hereditary.joinStep holdsStart here
      obtain ⟨joined, madeRest, holdsJoined⟩ := ih others holdsMiddle
      refine ⟨joined, ?_, holdsJoined⟩
      rw [List.foldlM_cons, made]
      exact madeRest
  exact general hereditary.unknown

end Hereditary
end TrialScript.Description
