import Mathlib.Data.Set.Lattice
import TrialScript.Proofs.Description.Hereditary
import TrialScript.Proofs.Description.Keyed
import TrialScript.Proofs.Value.Regular

/-! Merging and joining keep the listed alternatives, up to equality, and make up no others. -/

namespace TrialScript.Description

/-- No value or limit holds the undefined number, and the bounds of an interval are defined numbers. -/
abbrev Clean.Here : Description → Prop
  | .atom value | .object value => value.Regular
  | .range _ low high => DefinedNumbers low high
  | .select limit _ => limit.Regular
  | .array _ | .union _ => True

/-- Descriptions without the undefined number, whose intervals are between numbers. -/
abbrev Clean : Description → Prop :=
  Throughout Clean.Here

/-- A defined number is a regular value. -/
theorem regular_num {number : Number} (defined : number.isNaN = false) :
    (Value.num number).Regular :=
  .scalar (by rintro _ ⟨⟩; exact defined)

namespace Clean

/-- Being clean goes to and comes from the parts of a description. -/
theorem hereditary : Hereditary Clean :=
  Throughout.hereditary (.scalar (by rintro _ ⟨⟩)) (fun _ => regular_num rfl) (fun _ => trivial)
    DefinedNumbers.widened

/-- A clean description is equal to itself. -/
theorem same_self {description : Description} (clean : description.Clean) :
    description.same description = true := by
  -- The induction follows the ways to be clean, since parts are compared with themselves.
  have items : ∀ {parts : List Description}, (∀ part ∈ parts, part.same part = true) →
      sameItems parts parts = true := by
    intro parts each
    exact sameItems_iff.mpr (List.forall₂_same.mpr each)
  induction clean with
  | atom regular => exact regular.sameAtomic_self
  | range bounds =>
    obtain ⟨lowDefined, highDefined⟩ := bounds
    simp only [same, beq_self_eq_true, Bool.true_and, Bool.and_eq_true]
    exact ⟨(regular_num lowDefined).equals_self, (regular_num highDefined).equals_self⟩
  | select regular _ ih =>
    simp only [same, Bool.and_eq_true]
    exact ⟨regular.equals_self, items ih⟩
  | array _ _ ih => exact items ih
  | object regular => exact regular.equals_self
  | union _ _ ih => exact items ih

/-- The mappings in a clean description name every field once. -/
theorem keyed {description : Description} (clean : description.Clean) : description.Keyed := by
  -- Regular values and numbers are keyed.
  refine clean.mono fun description meets => ?_
  cases description with
  | atom value | object value | select limit options => exact Value.Regular.keyed meets
  | range kind low high =>
    cases meets
    exact ⟨.scalar _, .scalar _⟩
  | array items | union variants => trivial

/-- Between clean descriptions the order of the two sides does not matter. -/
theorem same_symm {left right : Description} (cleanLeft : left.Clean) (cleanRight : right.Clean)
    (equal : left.same right = true) : right.same left = true :=
  cleanLeft.keyed.same_symm cleanRight.keyed equal

/-- On clean descriptions equality is an equivalence. -/
theorem same_equivalence : Equivalence fun left right : { description // Clean description } =>
    left.val.same right.val = true where
  refl description := same_self description.property
  symm {left right} equal := same_symm left.property right.property equal
  trans := same_trans

end Clean

mutual

/-- The listed alternatives of a description: unions are opened, choices of one only once. -/
def outcomes : Description → List Description
  | .unknown => []
  | .union variants => outcomesOf variants
  | .select limit options => if isSingle limit then options else [.select limit options]
  | other => [other]

/-- The listed alternatives of descriptions, one after the other. -/
def outcomesOf : List Description → List Description
  | [] => []
  | item :: rest => outcomes item ++ outcomesOf rest

end

/-- The outcomes of several descriptions are those of each of them, in order. -/
theorem outcomesOf_eq_flatMap (items : List Description) :
    outcomesOf items = items.flatMap outcomes := by
  -- Both sides open the descriptions one after the other.
  induction items with
  | nil => rfl
  | cons item rest ih => rw [outcomesOf, ih, List.flatMap_cons]

/-- An outcome of several descriptions is one of some of them. -/
theorem mem_outcomesOf {outcome : Description} {items : List Description} :
    outcome ∈ outcomesOf items ↔ ∃ item ∈ items, outcome ∈ item.outcomes := by
  rw [outcomesOf_eq_flatMap, List.mem_flatMap]

/-- A known exact value is its only alternative. -/
theorem outcomes_atom {value : Value} (known : value ≠ .null) :
    outcomes (.atom value) = [.atom value] := by
  unfold outcomes
  split <;> simp_all

/-- The descriptions that equal one of some descriptions. -/
def equalTo (items : List Description) : Set Description :=
  fun description => ∃ item ∈ items, description.same item = true

/-- The alternatives of a description, up to equality. -/
def outcomeSet (description : Description) : Set Description :=
  equalTo description.outcomes

/-- Nothing equals a description out of none. -/
@[simp] theorem equalTo_nil : equalTo [] = ∅ := by
  ext description
  exact ⟨fun ⟨_, member, _⟩ => absurd member List.not_mem_nil, False.elim⟩

/-- What equals one of two lists of descriptions equals one of either. -/
theorem equalTo_append (lefts rights : List Description) :
    equalTo (lefts ++ rights) = equalTo lefts ∪ equalTo rights := by
  -- A member of both lists together is one of the first or one of the second.
  ext description
  constructor
  · rintro ⟨item, member, equal⟩
    rcases List.mem_append.mp member with left | right
    · exact .inl ⟨item, left, equal⟩
    · exact .inr ⟨item, right, equal⟩
  · rintro (⟨item, member, equal⟩ | ⟨item, member, equal⟩)
    · exact ⟨item, List.mem_append_left _ member, equal⟩
    · exact ⟨item, List.mem_append_right _ member, equal⟩

/-- Descriptions that each have an equal one among others are equal to no more than these. -/
theorem equalTo_subset {narrow wide : List Description}
    (each : ∀ item ∈ narrow, ∃ other ∈ wide, item = other ∨ item.same other = true) :
    equalTo narrow ⊆ equalTo wide := by
  rintro description ⟨item, member, equal⟩
  obtain ⟨other, found, rfl | equal'⟩ := each item member
  · exact ⟨item, found, equal⟩
  · exact ⟨other, found, same_trans equal equal'⟩

/-- Dropping repetitions changes nothing up to equality. -/
theorem equalTo_distinct (items : List Description) : equalTo (distinct items) = equalTo items := by
  apply Set.Subset.antisymm
  · exact equalTo_subset fun item member => ⟨item, mem_of_mem_distinct member, .inl rfl⟩
  · exact equalTo_subset fun item member => kept_distinct member

/-- A choice of one of some distinct options has the options as its alternatives. -/
theorem outcomeSet_oneOf (options : List Description) :
    (oneOf (distinct options)).outcomeSet = equalTo options := by
  rw [outcomeSet, oneOf, outcomes, if_pos isSingle_one, equalTo_distinct]

/-- Equal descriptions have equal alternatives. -/
theorem outcomes_of_same {left right : Description} (equal : left.same right = true) :
    ∀ outcome ∈ left.outcomes, ∃ other ∈ right.outcomes, outcome.same other = true := by
  -- Equal descriptions have one shape, and only unions are opened beyond their options.
  induction left using induction_parts generalizing right with
  | atom value =>
    intro outcome member
    have whole := equal
    cases right <;> simp only [same, Bool.false_eq_true] at equal
    next value' =>
    by_cases known : value = .null
    · subst known
      cases member
    · -- Only null equals null, so the other side is known as well.
      have known' : value' ≠ .null := by
        rintro rfl
        exact known (Value.eq_null_of_equals (Value.sameAtomic_iff.mp equal).1)
      rw [outcomes_atom known, List.mem_singleton] at member
      rw [outcomes_atom known']
      exact ⟨_, List.mem_singleton_self _, member ▸ whole⟩
  | select limit options ih =>
    intro outcome member
    have whole := equal
    cases right <;> simp only [same, Bool.false_eq_true, Bool.and_eq_true] at equal
    next limit' options' =>
    -- Equal limits open both choices or neither.
    have alike := isSingle_of_equals equal.1
    by_cases single : isSingle limit = true
    · rw [outcomes, if_pos single] at member
      rw [outcomes, if_pos (alike ▸ single)]
      exact exists_same_of_mem equal.2 member
    · rw [outcomes, if_neg single, List.mem_singleton] at member
      rw [outcomes, if_neg (alike ▸ single)]
      exact ⟨_, List.mem_singleton_self _, member ▸ whole⟩
  | union variants ih =>
    intro outcome member
    cases right <;> simp only [same, Bool.false_eq_true] at equal
    next variants' =>
    obtain ⟨variant, inside, ofVariant⟩ := mem_outcomesOf.mp member
    obtain ⟨variant', found, equalVariant⟩ := exists_same_of_mem equal inside
    obtain ⟨other, ofOther, equalOther⟩ := ih variant inside equalVariant outcome ofVariant
    exact ⟨other, mem_outcomesOf.mpr ⟨variant', found, ofOther⟩, equalOther⟩
  | range | array | object =>
    intro outcome member
    cases List.mem_singleton.mp member
    cases right <;> simp only [same, Bool.false_eq_true] at equal
    exact ⟨_, List.mem_singleton_self _, by simpa only [same] using equal⟩

/-- The alternatives of descriptions up to equality are those of the distinct ones among them. -/
theorem equalTo_outcomesOf_distinct (items : List Description) :
    equalTo (outcomesOf (distinct items)) = equalTo (outcomesOf items) := by
  apply Set.Subset.antisymm
  · refine equalTo_subset fun outcome member => ?_
    obtain ⟨item, inside, ofItem⟩ := mem_outcomesOf.mp member
    exact ⟨outcome, mem_outcomesOf.mpr ⟨item, mem_of_mem_distinct inside, ofItem⟩, .inl rfl⟩
  · -- An item that was dropped equals one that was kept, and so do its alternatives.
    refine equalTo_subset fun outcome member => ?_
    obtain ⟨item, inside, ofItem⟩ := mem_outcomesOf.mp member
    obtain ⟨kept, found, rfl | equal⟩ := kept_distinct inside
    · exact ⟨outcome, mem_outcomesOf.mpr ⟨item, found, ofItem⟩, .inl rfl⟩
    · obtain ⟨other, ofKept, equalOther⟩ := outcomes_of_same equal outcome ofItem
      exact ⟨other, mem_outcomesOf.mpr ⟨kept, found, ofKept⟩, .inr equalOther⟩

/-- A variant has the alternatives that it stands for. -/
theorem outcomesOf_alternatives (variant : Description) :
    outcomesOf variant.alternatives = variant.outcomes := by
  -- Only unions are opened, and the unknown has no alternative on either side.
  unfold alternatives
  split
  · rfl
  · rfl
  · simp [outcomesOf]

/-- A union has the alternatives of its variants. -/
theorem outcomeSet_unionOf (variants : List Description) :
    (unionOf variants).outcomeSet = equalTo (outcomesOf variants) := by
  -- The union is made of the alternatives of its variants without repetitions.
  have opened : outcomesOf (variants.flatMap alternatives) = outcomesOf variants := by
    simp only [outcomesOf_eq_flatMap, List.flatMap_assoc]
    simp only [← outcomesOf_eq_flatMap, outcomesOf_alternatives]
  rw [← opened, ← equalTo_outcomesOf_distinct, outcomeSet]
  unfold unionOf
  -- No variant, a single one, and a union of several.
  split
  · next none => rw [none]; rfl
  · next variant one => rw [one, outcomesOf, outcomesOf, List.append_nil]
  · rfl

/-- A union of two descriptions has the alternatives of both. -/
theorem outcomeSet_unionOf_pair (left right : Description) :
    (unionOf [left, right]).outcomeSet = left.outcomeSet ∪ right.outcomeSet := by
  rw [outcomeSet_unionOf, outcomesOf, outcomesOf, outcomesOf, List.append_nil, equalTo_append]
  rfl

/-- Both descriptions are intervals of one kind. -/
def Widens (left right : Description) : Prop :=
  ∃ kind low high low' high', left = .range kind low high ∧ right = .range kind low' high'

/-- A choice of one has its options as alternatives, up to equality. -/
theorem outcomeSet_single {limit : Value} (single : isSingle limit = true)
    (options : List Description) : (select limit options).outcomeSet = equalTo options := by
  rw [outcomeSet, outcomes, if_pos single]

/-- Merging keeps the alternatives of both sides and makes up no others, unless it widens an interval. -/
theorem outcomeSet_merge {left right merged : Description} (cleanLeft : left.Clean)
    (cleanRight : right.Clean) (apart : ¬ Widens left right)
    (made : merge left right = .ok merged) :
    merged.outcomeSet = left.outcomeSet ∪ right.outcomeSet := by
  -- The split follows the definition, with one case for each pair of shapes.
  have unknown : outcomeSet .unknown = ∅ := equalTo_nil
  have exactly : ∀ value : Value, value ≠ .null →
      (Description.atom value).outcomeSet = equalTo [.atom value] := by
    intro value known
    rw [outcomeSet, outcomes_atom known]
  unfold merge at made
  split at made
  · cases made
    rw [unknown, Set.empty_union]
  · cases made
    rw [unknown, Set.union_empty]
  · next x y knownLeft knownRight =>
    have left := exactly x (by rintro rfl; exact knownLeft rfl)
    have right := exactly y (by rintro rfl; exact knownRight rfl)
    cases made
    split
    · next equal =>
      -- Of two equal exact values the left one stays, and the right one is equal to it.
      have back : (Description.atom y).same (.atom x) = true := cleanLeft.same_symm cleanRight equal
      have within : (Description.atom y).outcomeSet ⊆ (Description.atom x).outcomeSet := by
        rw [left, right]
        exact equalTo_subset fun item member =>
          ⟨_, List.mem_singleton_self _, .inr (List.mem_singleton.mp member ▸ back)⟩
      exact (Set.union_eq_left.mpr within).symm
    · rw [left, right, ← equalTo_append]
      exact outcomeSet_single isSingle_one _
  · next x limit options known =>
    -- An exact value becomes one more option, on either side, if one option is chosen.
    have exactValue := exactly x (by rintro rfl; exact known rfl)
    cases made
    split
    · next single =>
      rw [outcomeSet_oneOf, outcomeSet_single single, exactValue, ← equalTo_append]
      rfl
    · exact outcomeSet_unionOf_pair _ _
  · next limit options y known =>
    have exactValue := exactly y (by rintro rfl; exact known rfl)
    cases made
    split
    · next single =>
      rw [outcomeSet_oneOf, outcomeSet_single single, exactValue, ← equalTo_append]
    · exact outcomeSet_unionOf_pair _ _
  · next kind low high kind' low' high' =>
    -- Intervals of one kind are the case that is left out.
    split at made
    · next same => exact absurd ⟨kind, low, high, low', high', rfl, same ▸ rfl⟩ apart
    · cases made
      exact outcomeSet_unionOf_pair _ _
  · next limit options limit' options' =>
    -- Two choices of one become a choice among all their options.
    cases made
    split
    · next single =>
      obtain ⟨one, one'⟩ := Bool.and_eq_true_iff.mp single
      rw [outcomeSet_oneOf, outcomeSet_single one, outcomeSet_single one', equalTo_append]
    · exact outcomeSet_unionOf_pair _ _
  · next variants _ _ =>
    -- A union takes a structured description in as one more variant.
    cases made
    split
    · rw [outcomeSet_unionOf, outcomesOf_eq_flatMap, List.flatMap_append, equalTo_append,
        ← outcomesOf_eq_flatMap, List.flatMap_singleton]
      rfl
    · exact outcomeSet_unionOf_pair _ _
  · cases made
    exact outcomeSet_unionOf_pair _ _

/-- A step of joining keeps the alternatives of both sides, unless it widens an interval. -/
theorem outcomeSet_joinStep {left right joined : Description} (cleanLeft : left.Clean)
    (cleanRight : right.Clean) (apart : ¬ Widens left right)
    (made : joinStep left right = .ok joined) :
    joined.outcomeSet = left.outcomeSet ∪ right.outcomeSet := by
  -- Two exact values are put in a union, and everything else is merged.
  unfold joinStep at made
  split at made
  · exact outcomeSet_merge cleanLeft cleanRight apart made
  · cases made
    exact outcomeSet_unionOf_pair left right

/-- No interval is among the alternatives. -/
def Rangeless (description : Description) : Prop :=
  ∀ kind low high, .range kind low high ∉ description.outcomes

/-- Nothing is widened by a description without intervals. -/
theorem Rangeless.apart {right : Description} (rangeless : right.Rangeless) (left : Description) :
    ¬ Widens left right := by
  rintro ⟨kind, low, high, low', high', -, rfl⟩
  exact rangeless kind low' high' (List.mem_singleton_self _)

/-- Joining branches without intervals succeeds, with the alternatives of all of them. -/
theorem join_outcomes {branches : List Description} (clean : ∀ branch ∈ branches, branch.Clean)
    (rangeless : ∀ branch ∈ branches, branch.Rangeless) :
    ∃ joined, join branches = .ok joined ∧
      joined.outcomeSet = ⋃ branch ∈ branches, branch.outcomeSet := by
  -- The fold has the alternatives that it started with and those of the branches so far.
  have general : ∀ {start : Description}, start.Clean →
      ∃ joined, branches.foldlM joinStep start = .ok joined ∧
        joined.outcomeSet = start.outcomeSet ∪ ⋃ branch ∈ branches, branch.outcomeSet := by
    induction branches with
    | nil =>
      intro start _
      exact ⟨start, rfl, by simp⟩
    | cons branch rest ih =>
      -- The first branch is joined to the start, and the others to what that gives.
      intro start cleanStart
      obtain ⟨cleanBranch, cleanRest⟩ := List.forall_mem_cons.mp clean
      obtain ⟨rangelessBranch, rangelessRest⟩ := List.forall_mem_cons.mp rangeless
      obtain ⟨middle, made, cleanMiddle⟩ := Clean.hereditary.joinStep cleanStart cleanBranch
      have step := outcomeSet_joinStep cleanStart cleanBranch (rangelessBranch.apart start) made
      obtain ⟨joined, madeRest, onward⟩ := ih cleanRest rangelessRest cleanMiddle
      refine ⟨joined, ?_, ?_⟩
      · rw [List.foldlM_cons, made]
        exact madeRest
      · rw [onward, step, Set.union_assoc]
        simp [Set.iUnion_or, Set.iUnion_union_distrib]
  -- The fold starts with nothing known, which has no outcome of its own.
  obtain ⟨joined, made, outcomes⟩ := general Clean.hereditary.unknown
  have unknown : outcomeSet .unknown = ∅ := equalTo_nil
  exact ⟨joined, made, by rw [outcomes, unknown, Set.empty_union]⟩

/-- Two intervals of one kind merge into one from the smaller lower bound to the larger upper one. -/
theorem merge_ranges (kind : RangeKind) {low high low' high' : Number}
    (lowDefined : low.isNaN = false) (highDefined : high.isNaN = false)
    (lowDefined' : low'.isNaN = false) (highDefined' : high'.isNaN = false) :
    ∃ least most : Number,
      merge (.range kind (.num low) (.num high)) (.range kind (.num low') (.num high')) =
        .ok (.range kind (.num least) (.num most)) ∧
      (least = low ∨ least = low') ∧ least.atMost low = true ∧ least.atMost low' = true ∧
      (most = high ∨ most = high') ∧ high.atMost most = true ∧ high'.atMost most = true := by
  -- The bounds are chosen by comparison, and two defined numbers compare.
  refine ⟨low.least low', high.greatest high', ?_, Number.least_cases low low', ?_, ?_,
    Number.greatest_cases high high', ?_, ?_⟩
  · rw [merge, if_pos rfl, widen_num]
    rfl
  · exact (Number.least_atMost lowDefined lowDefined').1
  · exact (Number.least_atMost lowDefined lowDefined').2
  · exact (Number.atMost_greatest highDefined highDefined').1
  · exact (Number.atMost_greatest highDefined highDefined').2

/--
Merging and joining lose no alternative of clean descriptions and make up none.

Alternatives are compared by an equality that is an equivalence there.
Only two intervals of one kind give a new one, from the smaller lower to the larger upper bound.
Without intervals the alternatives of a join are those of its branches, in whatever order they come.
-/
theorem merge_and_join_keep_outcomes :
    (Equivalence fun left right : { description // Clean description } =>
      left.val.same right.val = true) ∧
    (∀ left right : Description, left.Clean → right.Clean → ¬ Widens left right →
      ∃ merged, merge left right = .ok merged ∧
        merged.outcomeSet = left.outcomeSet ∪ right.outcomeSet) ∧
    (∀ (kind : RangeKind) (low high low' high' : Number), low.isNaN = false → high.isNaN = false →
      low'.isNaN = false → high'.isNaN = false → ∃ least most : Number,
        merge (.range kind (.num low) (.num high)) (.range kind (.num low') (.num high')) =
          .ok (.range kind (.num least) (.num most)) ∧
        (least = low ∨ least = low') ∧ least.atMost low = true ∧ least.atMost low' = true ∧
        (most = high ∨ most = high') ∧ high.atMost most = true ∧ high'.atMost most = true) ∧
    ∀ branches : List Description, (∀ branch ∈ branches, branch.Clean) →
      (∀ branch ∈ branches, branch.Rangeless) → ∃ joined, join branches = .ok joined ∧
        joined.outcomeSet = (⋃ branch ∈ branches, branch.outcomeSet) ∧
        ∀ reordered : List Description, reordered.Perm branches → ∃ joined',
          join reordered = .ok joined' ∧ joined'.outcomeSet = joined.outcomeSet := by
  refine ⟨Clean.same_equivalence, ?_, ?_, ?_⟩
  · intro left right cleanLeft cleanRight apart
    obtain ⟨merged, made, -⟩ := Clean.hereditary.merge cleanLeft cleanRight
    exact ⟨merged, made, outcomeSet_merge cleanLeft cleanRight apart made⟩
  · intro kind low high low' high' lowDefined highDefined lowDefined' highDefined'
    exact merge_ranges kind lowDefined highDefined lowDefined' highDefined'
  · intro branches clean rangeless
    obtain ⟨joined, made, outcomes⟩ := join_outcomes clean rangeless
    refine ⟨joined, made, outcomes, fun reordered permuted => ?_⟩
    -- The same branches in another order have the same union of alternatives.
    obtain ⟨joined', made', outcomes'⟩ := join_outcomes
      (fun branch member => clean branch (permuted.subset member))
      (fun branch member => rangeless branch (permuted.subset member))
    refine ⟨joined', made', ?_⟩
    rw [outcomes, outcomes']
    simp only [permuted.mem_iff]

/-- A union and a choice of one merge into a union of three, and join alike in either order. -/
theorem merge_and_join_keep_outcomes_union_select :
    let listed := Description.array [.atom (.str "a")]
    let mapped := Description.object (.dict [("a", .int 1)])
    let range := Description.range .integer (.int 0) (.int 1)
    let wider := Description.range .integer (.int (-2)) (.int 1)
    let choice := oneOf [.atom (.str "a"), .atom (.int 1)]
    (merge (.union [listed, range]) choice = .ok (.union [listed, range, choice]) ∧
      (Description.union [listed, range, choice]).outcomeSet =
        (Description.union [listed, range]).outcomeSet ∪ choice.outcomeSet) ∧
    (∃ least most : Number, merge range wider = .ok (.range .integer (.num least) (.num most)) ∧
      least.atMost (.int (-2)) = true ∧ (Number.int 1).atMost most = true) ∧
    ∃ joined joined', join [.union [listed, mapped], choice] = .ok joined ∧
      join [choice, .union [listed, mapped]] = .ok joined' ∧
      joined'.outcomeSet = joined.outcomeSet := by
  intro listed mapped range wider choice
  -- The parts are clean, and so are the descriptions that are made of them.
  have scalar (value : Scalar) (defined : ∀ n, value = .num n → n.isNaN = false) :
      (Description.atom (.scalar value)).Clean := .atom (.scalar defined)
  have text : (Description.atom (.str "a")).Clean := scalar _ (by rintro _ ⟨⟩)
  have one : (Description.atom (.int 1)).Clean := scalar _ (by rintro _ ⟨⟩; rfl)
  have cleanListed : listed.Clean := .array trivial (List.forall_mem_singleton.mpr text)
  have cleanMapped : mapped.Clean :=
    .object (.dict (by decide) (List.forall_mem_singleton.mpr (regular_num rfl)))
  have cleanRange : range.Clean := .range ⟨rfl, rfl⟩
  have cleanChoice : choice.Clean := .select (regular_num rfl)
    (List.forall_mem_cons.mpr ⟨text, List.forall_mem_singleton.mpr one⟩)
  have cleanUnion : ∀ other : Description, other.Clean →
      (Description.union [listed, other]).Clean := fun other clean =>
    .union trivial (List.forall_mem_cons.mpr ⟨cleanListed, List.forall_mem_singleton.mpr clean⟩)
  obtain ⟨-, merges, widens, joins⟩ := merge_and_join_keep_outcomes
  -- The merge is run, and the theorem says which alternatives it has.
  have made : merge (.union [listed, range]) choice = .ok (.union [listed, range, choice]) := by rfl
  obtain ⟨merged, made', kept⟩ := merges _ choice (cleanUnion range cleanRange) cleanChoice
    (by rintro ⟨kind, low, high, low', high', ⟨⟩, -⟩)
  obtain ⟨least, most, bounds, -, -, below, -, -, above⟩ :=
    widens .integer (.int 0) (.int 1) (.int (-2)) (.int 1) rfl rfl rfl rfl
  -- No interval is among the alternatives of the two branches.
  have rangelessUnion : (Description.union [listed, mapped]).Rangeless := by
    intro kind low high member
    have alternatives : (Description.union [listed, mapped]).outcomes = [listed, mapped] := rfl
    simp [alternatives, listed, mapped] at member
  have rangelessChoice : choice.Rangeless := by
    intro kind low high member
    have alternatives : choice.outcomes = [.atom (.str "a"), .atom (.int 1)] := by
      rw [show choice = .select (.int 1) [.atom (.str "a"), .atom (.int 1)] from rfl, outcomes,
        if_pos isSingle_one]
    simp [alternatives] at member
  obtain ⟨joined, madeJoin, -, reorders⟩ := joins [.union [listed, mapped], choice]
    (List.forall_mem_cons.mpr ⟨cleanUnion mapped cleanMapped,
      List.forall_mem_singleton.mpr cleanChoice⟩)
    (List.forall_mem_cons.mpr ⟨rangelessUnion, List.forall_mem_singleton.mpr rangelessChoice⟩)
  obtain ⟨joined', madeJoin', same⟩ := reorders [choice, .union [listed, mapped]] (.swap _ _ _)
  cases made.symm.trans made'
  exact ⟨⟨made, kept⟩, ⟨least, most, bounds, below, above⟩,
    joined, joined', madeJoin, madeJoin', same⟩

end TrialScript.Description
