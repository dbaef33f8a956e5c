import TrialScript.Proofs.Description.Cover

/-! Merging and joining lose no alternative of what they put together. -/

namespace TrialScript

/-- A value that does not count as the undefined number. -/
def Value.Defined (value : Value) : Prop :=
  ∀ number, value.quantity? = some number → number.isNaN = false

/-- A number that is defined counts as itself. -/
theorem Value.Defined.num {number : Number} (defined : number.isNaN = false) :
    (Value.num number).Defined := by
  intro other counts
  cases counts
  exact defined

namespace Description

/-- The intervals among the alternatives have bounds that can be ordered. -/
def Ordered (description : Description) : Prop :=
  ∀ kind low high, .range kind low high ∈ description.leaves → low.Defined ∧ high.Defined

/-- Dropping repetitions keeps an equal description for each. -/
theorem kept_distinct {items : List Description} {item : Description} (member : item ∈ items) :
    ∃ kept ∈ distinct items, item = kept ∨ item.same kept = true := by
  -- What has been kept so far is never dropped, so the fold is followed from any such items.
  have general : ∀ (items seen : List Description),
      seen ⊆ items.foldl addNew seen ∧
        ∀ item ∈ items, ∃ kept ∈ items.foldl addNew seen, item = kept ∨ item.same kept = true := by
    intro items
    induction items with
    | nil => intro seen; exact ⟨fun _ member => member, by simp⟩
    | cons next rest ih =>
      intro seen
      obtain ⟨grown, others⟩ := ih (addNew seen next)
      have old : seen ⊆ addNew seen next := by
        intro kept inside
        unfold addNew
        split
        · exact inside
        · exact List.mem_append_left _ inside
      refine ⟨fun kept inside => grown (old inside), List.forall_mem_cons.mpr ⟨?_, others⟩⟩
      -- The first item is added now, or an equal one is there already.
      by_cases known : seen.any (same next) = true
      · obtain ⟨kept, inside, equal⟩ := List.any_eq_true.mp known
        exact ⟨kept, grown (old inside), .inr equal⟩
      · have added : next ∈ addNew seen next := by simp [addNew, known]
        exact ⟨next, grown added, .inl rfl⟩
  exact (general items []).2 item member

/-- Dropping repetitions adds nothing. -/
theorem mem_of_mem_distinct {items : List Description} {item : Description}
    (member : item ∈ distinct items) : item ∈ items := by
  -- The fold adds only items that it is given, whatever has been kept so far.
  have general : ∀ (items seen : List Description), item ∈ items.foldl addNew seen →
      item ∈ seen ∨ item ∈ items := by
    intro items
    induction items with
    | nil => intro seen; exact .inl
    | cons next rest ih =>
      intro seen member
      rcases ih _ member with inside | later
      -- An item that is kept after a step was kept before, or is the one that was added.
      · unfold addNew at inside
        split at inside
        · exact .inl inside
        · rcases List.mem_append.mp inside with old | new
          · exact .inl old
          · cases List.mem_singleton.mp new
            exact .inr List.mem_cons_self
      · exact .inr (List.mem_cons_of_mem _ later)
  simpa using general items [] member

/-- A description that puts others together loses no alternative and makes up no interval. -/
structure Pools (whole : Description) (parts : List Description) : Prop where
  covers : ∀ part ∈ parts, whole.Covers part
  made : ∀ leaf ∈ whole.leaves, ∃ part ∈ parts, leaf ∈ part.leaves

/-- Alternatives that are pooled from parts are ordered where those of the parts are. -/
theorem Pools.ordered {whole : Description} {parts : List Description} (pools : whole.Pools parts)
    (ordered : ∀ part ∈ parts, part.Ordered) : whole.Ordered := by
  -- An interval among the alternatives is one of a part.
  intro kind low high member
  obtain ⟨part, inside, leaf⟩ := pools.made _ member
  exact ordered part inside kind low high leaf

/-- What has the alternatives of some descriptions pools them. -/
theorem Pools.of_leaves {whole : Description} {parts : List Description}
    (leaves : whole.leaves = leavesOf parts) : whole.Pools parts := by
  -- Each alternative of a part is one of the whole, and the other way around.
  constructor
  · intro part member leaf ofPart
    exact ⟨leaf, leaves ▸ mem_leavesOf.mpr ⟨part, member, ofPart⟩, .refl leaf⟩
  · intro leaf member
    exact mem_leavesOf.mp (leaves ▸ member)

/-- What has the alternatives of some descriptions without repetitions pools those descriptions. -/
theorem pools_of_leaves_distinct {whole : Description} {items : List Description}
    (leaves : whole.leaves = leavesOf (distinct items)) : whole.Pools items := by
  -- An item that was dropped equals one that was kept, whose alternatives cover its own.
  constructor
  · intro item inside leaf ofItem
    obtain ⟨kept, found, rfl | equal⟩ := kept_distinct inside
    · exact ⟨leaf, leaves ▸ mem_leavesOf.mpr ⟨item, found, ofItem⟩, .refl leaf⟩
    · obtain ⟨other, ofKept, within⟩ := covers_of_same equal leaf ofItem
      exact ⟨other, leaves ▸ mem_leavesOf.mpr ⟨kept, found, ofKept⟩, within⟩
  · intro leaf member
    rw [leaves] at member
    obtain ⟨item, inside, ofItem⟩ := mem_leavesOf.mp member
    exact ⟨item, mem_of_mem_distinct inside, ofItem⟩

/-- The same alternatives may be pooled from other parts. -/
theorem Pools.regroup {whole : Description} {items parts : List Description}
    (pools : whole.Pools items) (same : leavesOf items = leavesOf parts) : whole.Pools parts := by
  -- Both halves speak of alternatives only, not of the descriptions that they come from.
  constructor
  · intro part member leaf ofPart
    have pooled : leaf ∈ leavesOf items := same ▸ mem_leavesOf.mpr ⟨part, member, ofPart⟩
    obtain ⟨item, inside, ofItem⟩ := mem_leavesOf.mp pooled
    exact pools.covers item inside leaf ofItem
  · intro leaf member
    obtain ⟨item, inside, ofItem⟩ := pools.made leaf member
    exact mem_leavesOf.mp (same ▸ mem_leavesOf.mpr ⟨item, inside, ofItem⟩)

/-- A choice of one has the alternatives of its options. -/
theorem leaves_oneOf (options : List Description) : (oneOf options).leaves = leavesOf options :=
  leaves_single isSingle_one options

/-- A choice of one of some distinct options pools the options. -/
theorem pools_oneOf (items : List Description) : (oneOf (distinct items)).Pools items :=
  pools_of_leaves_distinct (leaves_oneOf _)

/-- A variant has the alternatives that it stands for. -/
theorem leavesOf_alternatives (variant : Description) :
    leavesOf variant.alternatives = variant.leaves := by
  -- Only unions are opened, and the unknown has no alternative on either side.
  unfold alternatives
  split
  · rfl
  · rfl
  · simp [leavesOf]

/-- A union pools its variants. -/
theorem pools_unionOf (variants : List Description) : (unionOf variants).Pools variants := by
  -- The union is made of the alternatives of its variants without repetitions.
  have opened : (unionOf variants).Pools (variants.flatMap alternatives) := by
    refine pools_of_leaves_distinct ?_
    unfold unionOf
    -- No variant, a single one, and a union of several.
    split
    · next none => rw [none]; rfl
    · next variant one => rw [one]; simp [leavesOf]
    · rfl
  refine opened.regroup ?_
  simp only [leavesOf_eq_flatMap, List.flatMap_assoc]
  simp only [← leavesOf_eq_flatMap, leavesOf_alternatives]

/-- Two exact values that are equal are so in either order. -/
def Exchangeable (left right : Description) : Prop :=
  ∀ x y, left = .atom x → right = .atom y → x.sameAtomic y = true → y.sameAtomic x = true

/-- What merging two descriptions comes to; the right side needs bounds that can be ordered. -/
structure Merges (left right merged : Description) : Prop where
  coversLeft : merged.Covers left
  coversRight : left.Ordered → left.Exchangeable right → merged.Covers right
  ordered : left.Ordered → right.Ordered → merged.Ordered

/-- Pooling two descriptions merges them. -/
theorem Merges.of_pools {left right merged : Description} (pools : merged.Pools [left, right]) :
    Merges left right merged where
  coversLeft := pools.covers left (by simp)
  coversRight _ _ := pools.covers right (by simp)
  ordered := fun orderedLeft orderedRight => pools.ordered (by simp [orderedLeft, orderedRight])

/-- A lower bound of a widened interval is below everything that was above either bound. -/
theorem atMost_of_least {low low' least : Value} {number : Number}
    (chosen : low.least? low' = some least) :
    (low.atMost (.num number) = true → least.atMost (.num number) = true) ∧
      (low.Defined → low'.atMost (.num number) = true → least.atMost (.num number) = true) := by
  -- The bound that was not chosen is not smaller, so what it is below the chosen one is below too.
  obtain ⟨smaller, compared, rfl⟩ := Option.map_eq_some_iff.mp chosen
  constructor
  · -- The second bound is chosen where it is smaller than the first.
    intro below
    obtain ⟨p, counts, below⟩ := Value.atMost_num_iff.mp below
    cases smaller with
    | false => exact Value.atMost_num_iff.mpr ⟨p, counts, below⟩
    | true =>
      rw [Value.before?_of_right counts, Option.map_eq_some_iff] at compared
      obtain ⟨q, counts', less⟩ := compared
      have lower := Number.atMost_trans (Number.atMost_of_less less) below
      exact Value.atMost_num_iff.mpr ⟨q, counts', lower⟩
  · -- The first bound is chosen where the second is not smaller, or is not a number.
    intro defined below
    obtain ⟨q, counts', below⟩ := Value.atMost_num_iff.mp below
    cases smaller with
    | true => exact Value.atMost_num_iff.mpr ⟨q, counts', below⟩
    | false =>
      rw [Value.before?_of_left counts', Option.map_eq_some_iff] at compared
      obtain ⟨p, counts, notLess⟩ := compared
      have first := Number.atMost_of_not_less (defined p counts)
        (Number.not_isNaN_of_atMost below).1 notLess
      exact Value.atMost_num_iff.mpr ⟨p, counts, Number.atMost_trans first below⟩

/-- An upper bound of a widened interval is above everything that was below either bound. -/
theorem atMost_of_greatest {high high' most : Value} {number : Number}
    (chosen : high.greatest? high' = some most) :
    ((Value.num number).atMost high = true → (Value.num number).atMost most = true) ∧
      (high.Defined → (Value.num number).atMost high' = true →
        (Value.num number).atMost most = true) := by
  -- The bound that was not chosen is not larger, so what it is above the chosen one is above too.
  obtain ⟨larger, compared, rfl⟩ := Option.map_eq_some_iff.mp chosen
  constructor
  · -- The second bound is chosen where it is larger than the first.
    intro above
    obtain ⟨p, counts, above⟩ := Value.num_atMost_iff.mp above
    cases larger with
    | false => exact Value.num_atMost_iff.mpr ⟨p, counts, above⟩
    | true =>
      rw [Value.before?_of_left counts, Option.map_eq_some_iff] at compared
      obtain ⟨q, counts', less⟩ := compared
      have higher := Number.atMost_trans above (Number.atMost_of_less less)
      exact Value.num_atMost_iff.mpr ⟨q, counts', higher⟩
  · -- The first bound is chosen where the second is not larger, or is not a number.
    intro defined above
    obtain ⟨q, counts', above⟩ := Value.num_atMost_iff.mp above
    cases larger with
    | true => exact Value.num_atMost_iff.mpr ⟨q, counts', above⟩
    | false =>
      rw [Value.before?_of_right counts', Option.map_eq_some_iff] at compared
      obtain ⟨p, counts, notLess⟩ := compared
      have last := Number.atMost_of_not_less (Number.not_isNaN_of_atMost above).2
        (defined p counts) notLess
      exact Value.num_atMost_iff.mpr ⟨p, counts, Number.atMost_trans above last⟩

/-- A widened interval is around both of those that it was made from. -/
theorem merges_range {kind : RangeKind} {low low' high high' least most : Value}
    (widened : widen low low' high high' = .ok (least, most)) :
    Merges (.range kind low high) (.range kind low' high') (.range kind least most) := by
  -- Each bound was chosen on its own, and both admit what either interval admits.
  unfold widen at widened
  split at widened
  · next least most lows highs =>
    cases widened
    refine ⟨?_, fun ordered _ => ?_, fun orderedLeft orderedRight => ?_⟩
    · refine .of_inside rfl rfl (.within fun number between => ?_)
      exact ⟨(atMost_of_least lows).1 between.1, (atMost_of_greatest highs).1 between.2⟩
    · -- For the right interval the bounds on the left must be defined.
      obtain ⟨low, high⟩ := ordered _ _ _ (List.mem_singleton_self _)
      refine .of_inside rfl rfl (.within fun number between => ?_)
      exact ⟨(atMost_of_least lows).2 low between.1, (atMost_of_greatest highs).2 high between.2⟩
    · intro kind' first last member
      cases List.mem_singleton.mp member
      obtain ⟨low, high⟩ := orderedLeft _ _ _ (List.mem_singleton_self _)
      obtain ⟨low', high'⟩ := orderedRight _ _ _ (List.mem_singleton_self _)
      exact ⟨Value.of_chosen lows low low', Value.of_chosen highs high high'⟩
  · cases widened

/-- Merging loses no alternative of either side. -/
theorem merges_of_merge {left right merged : Description} (made : merge left right = .ok merged) :
    Merges left right merged := by
  -- The split follows the definition, with one case for each pair of shapes.
  unfold merge at made
  split at made
  · -- Nothing is known on the left, so the right side is all there is, and the other way around.
    cases made
    exact ⟨.unknown _, fun _ _ => .refl _, fun _ ordered => ordered⟩
  · cases made
    exact ⟨.refl _, fun _ _ => .unknown _, fun ordered _ => ordered⟩
  · next x y _ _ =>
    -- Of two equal exact values the left one stays.
    cases made
    split
    · next equal =>
      refine ⟨.refl _, fun _ exchangeable => ?_, fun ordered _ => ordered⟩
      exact covers_of_same (exchangeable x y rfl rfl equal)
    · exact .of_pools (.of_leaves (leaves_oneOf _))
  · next x limit options _ =>
    -- An exact value becomes one more option, on either side, if one option is chosen.
    cases made
    split
    · next single =>
      refine .of_pools ((pools_oneOf _).regroup ?_)
      simp [leavesOf, leaves_single single]
    · exact .of_pools (pools_unionOf _)
  · next limit options y _ =>
    cases made
    split
    · next single =>
      refine .of_pools ((pools_oneOf _).regroup ?_)
      simp [leavesOf_eq_flatMap, leaves_single single]
    · exact .of_pools (pools_unionOf _)
  · next kind low high kind' low' high' =>
    -- Intervals of one kind are widened into one.
    split at made
    · next same =>
      subst same
      cases widened : widen low low' high high' with
      | ok bounds =>
        rw [widened] at made
        cases made
        exact merges_range widened
      | error fault =>
        rw [widened] at made
        cases made
    · cases made
      exact .of_pools (pools_unionOf _)
  · next limit options limit' options' =>
    -- Two choices of one become a choice among all their options.
    cases made
    split
    · next single =>
      obtain ⟨one, one'⟩ := Bool.and_eq_true_iff.mp single
      refine .of_pools ((pools_oneOf _).regroup ?_)
      simp [leavesOf_eq_flatMap, leaves_single one, leaves_single one']
    · exact .of_pools (pools_unionOf _)
  · next variants _ _ =>
    -- A union takes a structured description in as one more variant.
    cases made
    split
    · refine .of_pools ((pools_unionOf _).regroup ?_)
      simp [leavesOf_eq_flatMap, leaves]
    · exact .of_pools (pools_unionOf _)
  · cases made
    exact .of_pools (pools_unionOf _)

/-- Only the null atom is unknown. -/
theorem isUnknown_iff {description : Description} :
    description.isUnknown = true ↔ description = .unknown := by
  -- The definition asks for this shape and no other.
  unfold isUnknown
  split <;> simp_all

/-- A description of exact or structured values that joins another keeps both. -/
theorem merges_of_joinStep {left right joined : Description}
    (made : joinStep left right = .ok joined) :
    joined.Covers left ∧ (left.Ordered → joined.Covers right) ∧
      (left.Ordered → right.Ordered → joined.Ordered) := by
  -- Two exact values are pooled, and everything else is merged.
  unfold joinStep at made
  split at made
  · next apart =>
    have merged := merges_of_merge made
    refine ⟨merged.coversLeft, fun ordered => merged.coversRight ordered ?_, merged.ordered⟩
    -- Of two exact values one is unknown here, and only what is unknown equals it.
    rintro x y rfl rfl equal
    have equals := (Value.sameAtomic_iff.mp equal).1
    simp only [isStructured, Bool.or_false, Bool.or_eq_true, isUnknown_iff, atom.injEq] at apart
    rcases apart with rfl | rfl
    · exact Value.eq_null_of_null_equals equals ▸ equal
    · exact Value.eq_null_of_equals equals ▸ equal
  · cases made
    have pooled := pools_unionOf [left, right]
    exact ⟨pooled.covers left (by simp), fun _ => pooled.covers right (by simp),
      fun orderedLeft orderedRight => pooled.ordered (by simp [orderedLeft, orderedRight])⟩

/-- Joining further branches keeps what was joined so far, and adds what the branches describe. -/
theorem covers_of_foldlM {branches : List Description} {start joined : Description}
    (made : branches.foldlM joinStep start = .ok joined) :
    joined.Covers start ∧ (start.Ordered → (∀ branch ∈ branches, branch.Ordered) →
      ∀ branch ∈ branches, joined.Covers branch) := by
  -- The induction is on the branches: each step keeps what came before it and adds its own.
  induction branches generalizing start with
  | nil =>
    cases made
    exact ⟨.refl _, by simp⟩
  | cons branch rest ih =>
    rw [List.foldlM_cons] at made
    cases step : joinStep start branch with
    | error fault =>
      rw [step] at made
      cases made
    -- What covers the step so far covers both of its sides.
    | ok middle =>
      rw [step] at made
      obtain ⟨left, right, ordered⟩ := merges_of_joinStep step
      obtain ⟨further, others⟩ := ih made
      refine ⟨further.trans left, fun orderedStart orderedBranches => ?_⟩
      obtain ⟨orderedBranch, orderedRest⟩ := List.forall_mem_cons.mp orderedBranches
      refine List.forall_mem_cons.mpr ⟨further.trans (right orderedStart), ?_⟩
      exact others (ordered orderedStart orderedBranch) orderedRest

/-- A join covers its first branch, whatever the others are. -/
theorem join_covers_first {first joined : Description} {rest : List Description}
    (made : join (first :: rest) = .ok joined) : joined.Covers first := by
  -- Nothing is known before the first branch, so it is taken as it is.
  have step : joinStep .unknown first = .ok first := rfl
  rw [join, List.foldlM_cons, step] at made
  exact (covers_of_foldlM made).1

/-- A join of branches with ordered bounds covers every one of them. -/
theorem join_covers {branches : List Description} {joined : Description}
    (made : join branches = .ok joined) (ordered : ∀ branch ∈ branches, branch.Ordered) :
    ∀ branch ∈ branches, joined.Covers branch :=
  (covers_of_foldlM made).2 (by simp [Ordered, leaves]) ordered

end Description
end TrialScript
