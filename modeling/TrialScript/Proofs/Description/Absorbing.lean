import TrialScript.Preview
import TrialScript.Proofs.Description.Normal
import TrialScript.Proofs.Description.Outcomes

/-! Absorption: what a description was merged with before changes nothing when it is merged once more. -/

namespace TrialScript

namespace Number

/-- The smaller number stays the smaller one beside the same number. -/
theorem least_least (x y : Number) : (x.least y).least y = x.least y := by
  -- Either the other number was taken, which is not below itself, or it was refused once already.
  unfold least
  by_cases smaller : y.less x = true
  · rw [if_pos smaller, ite_self]
  · rw [if_neg smaller, if_neg smaller]

/-- The larger number stays the larger one beside the same number. -/
theorem greatest_greatest (x y : Number) : (x.greatest y).greatest y = x.greatest y := by
  -- Either the other number was taken, which is not above itself, or it was refused once already.
  unfold greatest
  by_cases smaller : x.less y = true
  · rw [if_pos smaller, ite_self]
  · rw [if_neg smaller, if_neg smaller]

end Number

namespace Description

variable {description left right merged : Description} {limit : Value}
  {items more options variants : List Description}

/-- Merging with another description changes nothing about this one. -/
def Absorbs (description added : Description) : Prop :=
  merge description added = .ok description

/-- Unions list several separate variants, and choices of one list no option twice. -/
def Settled : Description → Prop
  | .select limit options => isSingle limit = true →
      options.Pairwise fun earlier later => later.same earlier = false
  | .union variants => Separate variants
  | _ => True

section Distinct

/-- Nothing is added to descriptions that have an equal one for each item. -/
theorem foldl_addNew_of_kept {seen : List Description}
    (each : ∀ item ∈ items, ∃ kept ∈ seen, item.same kept = true) :
    items.foldl addNew seen = seen := by
  -- No item is added, so the same descriptions are searched for the next one.
  induction items with
  | nil => rfl
  | cons item rest ih =>
    obtain ⟨here, others⟩ := List.forall_mem_cons.mp each
    have known : seen.any (same item) = true := List.any_eq_true.mpr here
    rw [List.foldl_cons, addNew, if_pos known]
    exact ih others

/-- Items that were put behind others before are dropped when they are put there once more. -/
theorem distinct_append_again (clean : ∀ item ∈ more, item.Clean) :
    distinct (distinct (items ++ more) ++ more) = distinct (items ++ more) := by
  have settled := distinct_eq_self (pairwise_distinct (items ++ more))
  -- Every such item has an equal one among those that were kept.
  have kept : ∀ item ∈ more, ∃ kept ∈ distinct (items ++ more), item.same kept = true := by
    intro item member
    obtain ⟨kept, inside, rfl | equal⟩ := kept_distinct (List.mem_append_right items member)
    · exact ⟨item, inside, (clean item member).same_self⟩
    · exact ⟨kept, inside, equal⟩
  rw [distinct, List.foldl_append]
  show more.foldl addNew (distinct (distinct (items ++ more))) = _
  rw [settled]
  exact foldl_addNew_of_kept kept

/-- Items without repetitions are left alone when they are put behind themselves. -/
theorem distinct_twice (clean : ∀ item ∈ items, item.Clean)
    (apart : items.Pairwise fun earlier later => later.same earlier = false) :
    distinct (items ++ items) = items := by
  have self := distinct_eq_self apart
  have again := @distinct_append_again [] items clean
  rwa [List.nil_append, self] at again

/-- Items without repetitions in front stay there, whatever comes behind them. -/
theorem prefix_distinct (apart : items.Pairwise fun earlier later => later.same earlier = false)
    (more : List Description) : items <+: distinct (items ++ more) := by
  -- An item is added behind those that were kept so far, or not at all.
  have general : ∀ more seen : List Description, seen <+: more.foldl addNew seen := by
    intro more
    induction more with
    | nil => exact fun seen => List.prefix_rfl
    | cons item rest ih =>
      intro seen
      refine List.IsPrefix.trans ?_ (ih (addNew seen item))
      unfold addNew
      split
      · exact List.prefix_rfl
      · exact List.prefix_append seen [item]
  have self := distinct_eq_self apart
  rw [distinct, List.foldl_append]
  show items <+: more.foldl addNew (distinct items)
  rw [self]
  exact general more items

end Distinct

section Choices

/-- An exact value is put behind the options of a choice of one. -/
theorem merge_option {value : Value} (single : isSingle limit = true) (known : value ≠ .null) :
    merge (.select limit options) (.atom value) =
      .ok (oneOf (distinct (options ++ [.atom value]))) := by
  unfold merge
  split <;> simp_all

/-- The options of one choice of one are put behind those of another. -/
theorem merge_options {limit' : Value} {options' : List Description}
    (single : isSingle limit = true) (single' : isSingle limit' = true) :
    merge (.select limit options) (.select limit' options') =
      .ok (oneOf (distinct (options ++ options'))) := by
  rw [merge, single, single']
  rfl

/-- The options that a description adds to a choice of one, if it can. -/
def addedOptions? : Description → Option (List Description)
  | .unknown => none
  | .atom value => some [.atom value]
  | .select limit options => if isSingle limit then some options else none
  | _ => none

/-- A known exact value adds itself to the options. -/
theorem addedOptions?_atom {value : Value} (known : value ≠ .null) :
    addedOptions? (.atom value) = some [.atom value] := by
  unfold addedOptions?
  split <;> simp_all

/-- A choice of one takes in whatever added options to it before. -/
theorem oneOf_absorbs (adds : right.addedOptions? = some more) (clean : ∀ item ∈ more, item.Clean) :
    (oneOf (distinct (items ++ more))).Absorbs right := by
  have again := @distinct_append_again items more clean
  -- What adds options is a known exact value or another choice of one.
  unfold addedOptions? at adds
  split at adds
  · cases adds
  -- An exact value that was taken in once is found among the options again.
  · next value known =>
    cases adds
    have merges := @merge_option (.int 1) (distinct (items ++ [.atom value])) value isSingle_one
      known
    rwa [again] at merges
  -- The options of another choice are found again one by one.
  · next limit _ =>
    split at adds
    · next single' =>
      cases adds
      have merges := @merge_options (.int 1) (distinct (items ++ more)) limit more isSingle_one single'
      rwa [again] at merges
    · cases adds
  · cases adds

end Choices

section Unions

/-- A settled description is unknown, an alternative of its own, or a union of separate variants. -/
theorem Settled.shape (settled : description.Settled) :
    description = .unknown ∨ description.alternatives = [description] ∨
      ∃ variants, description = .union variants ∧ Separate variants := by
  -- Only unions and the unknown are opened to something else than themselves.
  by_cases unknown : description = .unknown
  · exact .inl unknown
  · by_cases union : ∃ variants, description = .union variants
    · obtain ⟨variants, rfl⟩ := union
      exact .inr (.inr ⟨variants, rfl, settled⟩)
    · have flat : ∀ inner, description ≠ .union inner := fun inner same => union ⟨inner, same⟩
      exact .inr (.inl (alternatives_eq_singleton unknown flat))

/-- Each of the alternatives of a settled description stands for itself alone. -/
theorem Settled.alternatives_eq {piece : Description} (settled : description.Settled)
    (member : piece ∈ description.alternatives) : piece.alternatives = [piece] := by
  -- A settled description is unknown, its only alternative, or a union of separate ones.
  rcases settled.shape with rfl | alone | ⟨variants, rfl, separate⟩
  · cases member
  · rw [alone, List.mem_singleton] at member
    rwa [member]
  · exact separate.alternatives_eq member

/-- No two alternatives of a settled description are equal. -/
theorem Settled.apart (settled : description.Settled) :
    description.alternatives.Pairwise fun earlier later => later.same earlier = false := by
  -- Only a union has more than one alternative, and those are separate.
  rcases settled.shape with rfl | alone | ⟨variants, rfl, separate⟩
  · exact .nil
  · rw [alone]
    exact List.pairwise_singleton _ _
  · exact separate.apart.imp fun apart => apart.2

/-- Merging with a union is making a union with it. -/
theorem merge_union (alone : ∀ variant ∈ variants, variant.alternatives = [variant])
    (known : right ≠ .unknown) :
    merge (.union variants) right = .ok (unionOf [.union variants, right]) := by
  -- The union stands for its variants, so opening it first makes no difference.
  have opened : unionOf (variants ++ [right]) = unionOf [.union variants, right] := by
    rw [unionOf, unionOf, List.flatMap_append, flatMap_alternatives alone]
    rfl
  unfold merge
  split <;> simp_all

/-- A known settled description with less than two alternatives is its only one. -/
theorem Settled.alone (settled : description.Settled) (known : description ≠ .unknown)
    (few : description.alternatives.length < 2) : description.alternatives = [description] := by
  -- A union of separate variants has at least two of them.
  rcases settled.shape with unknown | alone | ⟨variants, rfl, separate⟩
  · exact absurd unknown known
  · exact alone
  · exact absurd few (Nat.not_lt.mpr separate.several)

/-- The union of two descriptions is the first one, or takes in the second one. -/
theorem unionOf_absorbs (settledLeft : left.Settled) (settledRight : right.Settled)
    (clean : right.Clean) (knownLeft : left ≠ .unknown) (knownRight : right ≠ .unknown) :
    unionOf [left, right] = left ∨ (unionOf [left, right]).Absorbs right := by
  have opened : ∀ first : Description, [first, right].flatMap alternatives =
      first.alternatives ++ right.alternatives := by
    intro first
    simp only [List.flatMap_cons, List.flatMap_nil, List.append_nil]
  have front := prefix_distinct settledLeft.apart right.alternatives
  by_cases few : (distinct (left.alternatives ++ right.alternatives)).length < 2
  · -- There is no alternative besides the one on the left.
    have alone := settledLeft.alone knownLeft (Nat.lt_of_le_of_lt front.length_le few)
    have only : left.alternatives = distinct (left.alternatives ++ right.alternatives) := by
      refine front.eq_of_length_le ?_
      have length := congrArg List.length alone
      rw [List.length_singleton] at length
      omega
    left
    rw [unionOf, opened, ← only, alone]
  · -- The alternatives are several, and those on the right are found among them.
    have several := Nat.not_lt.mp few
    have alone : ∀ variant ∈ distinct (left.alternatives ++ right.alternatives),
        variant.alternatives = [variant] := by
      intro variant member
      rcases List.mem_append.mp (mem_of_mem_distinct member) with inside | inside
      · exact settledLeft.alternatives_eq inside
      · exact settledRight.alternatives_eq inside
    have made : unionOf [left, right] =
        .union (distinct (left.alternatives ++ right.alternatives)) := by
      rw [unionOf_of_several, opened]
      rwa [opened]
    have again := @distinct_append_again left.alternatives right.alternatives
      fun _ => Clean.hereditary.of_mem_alternatives clean
    have kept : distinct ([union (distinct (left.alternatives ++ right.alternatives)),
        right].flatMap alternatives) = distinct (left.alternatives ++ right.alternatives) := by
      rw [opened]
      exact again
    right
    rw [made, Absorbs, merge_union alone knownRight, unionOf_of_several, kept]
    rwa [kept]

/-- The union of a description with itself is that description. -/
theorem unionOf_self (settled : description.Settled) (clean : description.Clean) :
    unionOf [description, description] = description := by
  have once := @distinct_twice description.alternatives (fun _ => Clean.hereditary.of_mem_alternatives clean)
    settled.apart
  have opened : [description, description].flatMap alternatives =
      description.alternatives ++ description.alternatives := by
    rw [List.flatMap_cons, List.flatMap_singleton]
  rcases settled.shape with rfl | alone | ⟨variants, rfl, separate⟩
  · rfl
  · rw [unionOf, opened, once, alone]
  · -- The variants are several, so they are a union again.
    rw [unionOf_of_several, opened, once]
    · rfl
    · rw [opened, once]
      exact separate.several

end Unions

/-- A choice of one of two different exact values takes in the second one. -/
theorem oneOf_pair_absorbs {x y : Value} (cleanLeft : (Description.atom x).Clean)
    (cleanRight : (Description.atom y).Clean) (known : y ≠ .null)
    (differ : ¬ x.sameAtomic y = true) : (oneOf [.atom x, .atom y]).Absorbs (.atom y) := by
  -- The second value is no duplicate of the first, so the choice keeps both as they are written.
  have apart : (Description.atom y).same (.atom x) = false := by
    rw [← Bool.not_eq_true]
    exact fun back => differ (cleanRight.same_symm cleanLeft back)
  have kept : distinct ([.atom x] ++ [.atom y]) = [.atom x, .atom y] :=
    distinct_eq_self (List.pairwise_pair.mpr apart)
  rw [← kept]
  exact oneOf_absorbs (addedOptions?_atom known) (List.forall_mem_singleton.mpr cleanRight)

/-- A description that was merged into a known one is taken in by the result. -/
theorem absorbs_of_merge (cleanLeft : left.Clean) (cleanRight : right.Clean)
    (settledLeft : left.Settled) (settledRight : right.Settled) (known : left ≠ .unknown)
    (made : merge left right = .ok merged) : merged.Absorbs right := by
  -- The split follows the definition, and most pairs make a union.
  have whole := made
  have union : right ≠ .unknown → merged = unionOf [left, right] → merged.Absorbs right := by
    intro knownRight same
    subst same
    rcases unionOf_absorbs settledLeft settledRight cleanRight known knownRight with same | absorbs
    · rw [same] at whole ⊢
      exact whole
    · exact absorbs
  unfold merge at made
  split at made
  · exact absurd rfl known
  · cases made
    exact whole
  · next x y knownLeft knownRight =>
    cases made
    by_cases equal : x.sameAtomic y = true
    · rw [if_pos equal] at whole ⊢
      exact whole
    · rw [if_neg equal]
      exact oneOf_pair_absorbs cleanLeft cleanRight knownRight equal
  · next x limit options _ =>
    -- An exact value and the options of a choice are put together, on either side.
    split at made
    · next single =>
      cases made
      exact @oneOf_absorbs _ [.atom x] _ (if_pos single) (Clean.hereditary.options cleanRight)
    · exact union (by simp) (Except.ok.inj made).symm
  · next limit options y knownRight =>
    split at made
    · cases made
      exact oneOf_absorbs (addedOptions?_atom knownRight) (List.forall_mem_singleton.mpr cleanRight)
    · exact union (fun same => knownRight (atom.inj same)) (Except.ok.inj made).symm
  · next kind low high kind' low' high' =>
    split at made
    · next alike =>
      subst alike
      obtain ⟨_⟩ := cleanLeft.meets
      obtain ⟨_⟩ := cleanRight.meets
      -- The smaller of the lower bounds and the larger of the upper ones stay what they are.
      rw [widen_num] at made
      cases made
      simp only [Absorbs, merge, if_true, widen_num, Number.least_least,
        Number.greatest_greatest]
      rfl
    · exact union (by simp) (Except.ok.inj made).symm
  · next limit options limit' options' =>
    split at made
    · next single =>
      cases made
      have single' := (Bool.and_eq_true_iff.mp single).2
      exact oneOf_absorbs (if_pos single') (Clean.hereditary.options cleanRight)
    · exact union (by simp) (Except.ok.inj made).symm
  · next variants knownRight =>
    have alone : ∀ variant ∈ variants, variant.alternatives = [variant] :=
      fun _ => settledLeft.alternatives_eq
    rw [merge_union alone knownRight] at whole
    exact union knownRight (Except.ok.inj whole).symm
  · next knownRight _ _ _ _ _ =>
    exact union knownRight (Except.ok.inj made).symm

/-- A description merges with itself into one that equals it. -/
theorem merge_self (clean : description.Clean) (settled : description.Settled) :
    ∃ again, merge description description = .ok again ∧ again.same description = true := by
  have union : merge description description = .ok (unionOf [description, description]) →
      ∃ again, merge description description = .ok again ∧ again.same description = true := by
    intro made
    rw [unionOf_self settled clean] at made
    exact ⟨description, made, clean.same_self⟩
  have itself := clean.same_self
  -- Lists, mappings and choices of several fall through to the union of the two sides.
  cases clean with
  | @atom value regular =>
    by_cases known : value = .null
    · subst known
      exact ⟨.unknown, rfl, rfl⟩
    · have self : value.sameAtomic value = true := itself
      refine ⟨.atom value, ?_, itself⟩
      unfold merge
      split <;> simp_all
  | range bounds =>
    obtain ⟨_⟩ := bounds
    refine ⟨_, ?_, itself⟩
    simp only [merge, if_true, widen_num, Number.least, Number.greatest, ite_self]
    rfl
  | @select limit options regular each =>
    by_cases single : isSingle limit = true
    · refine ⟨oneOf options, ?_, ?_⟩
      · rw [merge_options single single, distinct_twice each (settled single)]
      · -- The limit equals one, and the options are the same.
        simp only [oneOf, same, Bool.and_eq_true] at itself ⊢
        exact ⟨(Value.Regular.keyed regular).equals_symm (.scalar _) single, itself.2⟩
    · refine union ?_
      simp only [merge, single]
      rfl
  | array => exact union rfl
  | object => exact union rfl
  | @union variants _ each =>
    have alone : ∀ variant ∈ variants, variant.alternatives = [variant] :=
      fun _ => settled.alternatives_eq
    exact union (merge_union alone (by simp))

/-- Merging over and over with what a description takes in changes nothing. -/
theorem Absorbs.foldlM (absorbs : merged.Absorbs right) (times : Nat) :
    (List.replicate times right).foldlM merge merged = .ok merged := by
  -- Each time the fold goes on from where it was.
  induction times with
  | zero => rfl
  | succ times ih =>
    rw [List.replicate_succ, List.foldlM_cons, absorbs]
    exact ih

/-- Merging any number of times with what was merged before gives an equal description each time. -/
theorem merge_again (cleanLeft : left.Clean) (cleanRight : right.Clean)
    (settledLeft : left.Settled) (settledRight : right.Settled)
    (made : merge left right = .ok merged) (times : Nat) :
    ∃ kept, (List.replicate times right).foldlM merge merged = .ok kept ∧
      kept.same merged = true := by
  by_cases known : left = .unknown
  · -- The first description is kept as it is, and from the second time on it is taken in.
    subst known
    obtain rfl : right = merged := Except.ok.inj made
    obtain ⟨again, twice, equal⟩ := merge_self cleanRight settledRight
    cases times with
    | zero => exact ⟨right, rfl, cleanRight.same_self⟩
    | succ times =>
      refine ⟨again, ?_, equal⟩
      have absorbs : again.Absorbs right := by
        by_cases unknown : right = .unknown
        · subst unknown
          cases twice
          rfl
        · exact absorbs_of_merge cleanRight cleanRight settledRight settledRight unknown twice
      rw [List.replicate_succ, List.foldlM_cons, twice]
      exact absorbs.foldlM times
  -- A known first description has taken the second one in, so nothing is left to add.
  · have absorbs := absorbs_of_merge cleanLeft cleanRight settledLeft settledRight known made
    obtain ⟨merged', made', clean⟩ := Clean.hereditary.merge cleanLeft cleanRight
    cases made.symm.trans made'
    exact ⟨merged, absorbs.foldlM times, clean.same_self⟩

/-- The result of merging clean descriptions covers both of them. -/
theorem covers_of_merge (cleanLeft : left.Clean) (cleanRight : right.Clean)
    (made : merge left right = .ok merged) : merged.Covers left ∧ merged.Covers right := by
  -- The ends of clean ranges are defined numbers, which is the order that covering asks for.
  have ordered : left.Ordered := by
    refine Clean.hereditary.ordered ?_ cleanLeft
    intro kind low high range
    obtain ⟨lowDefined, highDefined⟩ := range.meets
    exact ⟨.num lowDefined, .num highDefined⟩
  -- Clean values are compared the same way from either side.
  have exchangeable : left.Exchangeable right := by
    intro x y isLeft isRight equal
    subst isLeft isRight
    exact cleanLeft.same_symm cleanRight equal
  have merges := merges_of_merge made
  exact ⟨merges.coversLeft, merges.coversRight ordered exchangeable⟩

/-- Describing a variable merges its entry. -/
theorem run_describe {name : String} {symbols : Store Description}
    (made : merge (symbols.get name .unknown) right = .ok merged) :
    (describe name right).run symbols = (.ok merged, symbols.assign name merged) := by
  -- The run is spelled out, since merging is the only step of it that can fail.
  show (do
    let merged ← Description.merge (symbols.get name .unknown) right
    modify fun symbols => symbols.assign name merged
    return merged : Survey Description).run symbols = _
  rw [made]
  rfl

/--
Merging takes in what it is given: merging with it again changes nothing up to equality.

What is taken in is covered afterwards, and so is what was there before. The same holds for every
number of repetitions, so that describing a variable twice in the same way leaves its entry as it
was after the first time. A description merges with itself into itself. Only a limit that equals
one without being the integer is written differently afterwards.
-/
theorem merge_absorbs (cleanLeft : left.Clean) (cleanRight : right.Clean)
    (settledLeft : left.Settled) (settledRight : right.Settled) :
    (∃ merged again, merge left right = .ok merged ∧ merged.Covers left ∧ merged.Covers right ∧
      merge merged right = .ok again ∧ again.same merged = true) ∧
    (∃ again, merge left left = .ok again ∧ again.same left = true) ∧
    (∀ times : Nat, ∃ merged kept, merge left right = .ok merged ∧
      (List.replicate times right).foldlM merge merged = .ok kept ∧ kept.same merged = true) ∧
    ∀ (name : String) (symbols : Store Description), symbols.get name .unknown = left →
      ∃ merged again once twice, (describe name right).run symbols = (.ok merged, once) ∧
        (describe name right).run once = (.ok again, twice) ∧
        (twice.get name .unknown).same (once.get name .unknown) = true := by
  -- All four parts come from merging over and over, the first one from doing so once.
  obtain ⟨merged, made, -⟩ := Clean.hereditary.merge cleanLeft cleanRight
  have repeated := merge_again cleanLeft cleanRight settledLeft settledRight made
  have twice : ∃ again, merge merged right = .ok again ∧ again.same merged = true := by
    obtain ⟨again, kept, equal⟩ := repeated 1
    rw [List.replicate_one, List.foldlM_cons] at kept
    obtain ⟨result, merges, rest⟩ := check_bind_ok kept
    cases rest
    exact ⟨_, merges, equal⟩
  obtain ⟨again, merges, equal⟩ := twice
  obtain ⟨coversLeft, coversRight⟩ := covers_of_merge cleanLeft cleanRight made
  refine ⟨⟨merged, again, made, coversLeft, coversRight, merges, equal⟩,
    merge_self cleanLeft settledLeft, ?_, ?_⟩
  · intro times
    obtain ⟨kept, folded, same⟩ := repeated times
    exact ⟨merged, kept, made, folded, same⟩
  · intro name symbols held
    subst held
    -- The entry that a variable was given is the one that it is described again with.
    have entry : ∀ given : Description, ∀ before : Store Description,
        (before.assign name given).get name .unknown = given := by
      intro given before
      rw [Store.get, Store.lookup_assign, if_pos rfl, Option.getD_some]
    have onward : merge ((symbols.assign name merged).get name .unknown) right = .ok again := by
      rwa [entry]
    refine ⟨merged, again, _, _, run_describe made, run_describe onward, ?_⟩
    rw [entry, entry]
    exact equal

/-- An exact value that is one of the variants of a union comes first and is not listed twice. -/
theorem merge_absorbs_variant :
    let left := Description.atom (.str "a")
    let range := Description.range .integer (.int 0) (.int 1)
    let right := Description.union [range, left]
    merge left right = .ok (.union [left, range]) ∧
      (∃ again, merge (.union [left, range]) right = .ok again ∧
        again.same (.union [left, range]) = true) ∧
      ∃ again, merge left left = .ok again ∧ again.same left = true := by
  -- All parts are clean and the union is settled, so the theorem applies to the merge as it ran.
  intro left range right
  have cleanLeft : left.Clean := .atom (.scalar (by rintro _ ⟨⟩))
  have cleanRange : range.Clean := .range ⟨rfl, rfl⟩
  have cleanRight : right.Clean :=
    .union trivial (List.forall_mem_cons.mpr ⟨cleanRange, List.forall_mem_singleton.mpr cleanLeft⟩)
  have separate : Separate [range, left] := by
    refine ⟨by decide, ?_, ?_, List.pairwise_pair.mpr ⟨rfl, rfl⟩⟩
    · simp [range, left]
    · simp [range, left]
  have first : merge left right = .ok (.union [left, range]) := by rfl
  obtain ⟨⟨merged, again, made, -, -, twice, equal⟩, self, -, -⟩ :=
    merge_absorbs cleanLeft cleanRight trivial separate
  cases first.symm.trans made
  exact ⟨first, ⟨again, twice, equal⟩, self⟩

end Description
end TrialScript
