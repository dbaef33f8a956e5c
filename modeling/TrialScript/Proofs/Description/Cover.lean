import Mathlib.Data.List.Forall2
import TrialScript.Description.Merge
import TrialScript.Proofs.Value.Order

/-! Covering: which descriptions have every alternative of another, and that merging covers both sides. -/

namespace TrialScript

namespace Description

/-- What holds of a description once it holds of its options, items and variants holds of every one. -/
theorem induction_parts {motive : Description → Prop} (atom : ∀ value, motive (.atom value))
    (range : ∀ kind low high, motive (.range kind low high))
    (select : ∀ limit options, (∀ option ∈ options, motive option) → motive (.select limit options))
    (array : ∀ items, (∀ item ∈ items, motive item) → motive (.array items))
    (object : ∀ value, motive (.object value))
    (union : ∀ variants, (∀ variant ∈ variants, motive variant) → motive (.union variants)) :
    ∀ description, motive description
  | .atom value => atom value
  | .range kind low high => range kind low high
  | .select limit options =>
    select limit options fun option _ => induction_parts atom range select array object union option
  | .array items => array items fun item _ =>
    induction_parts atom range select array object union item
  | .object value => object value
  | .union variants =>
    union variants fun variant _ => induction_parts atom range select array object union variant
termination_by description => sizeOf description
decreasing_by
  all_goals
    have := List.sizeOf_lt_of_mem ‹_›
    simp only [Description.select.sizeOf_spec, Description.array.sizeOf_spec,
      Description.union.sizeOf_spec]
    omega

/-- Lists of descriptions are equal item by item. -/
theorem sameItems_iff {lefts rights : List Description} :
    sameItems lefts rights = true ↔
      List.Forall₂ (fun left right => left.same right = true) lefts rights := by
  -- The induction goes through both lists in step.
  induction lefts generalizing rights with
  | nil => cases rights <;> simp [sameItems]
  | cons left lefts ih => cases rights <;> simp [sameItems, ih]

/-- Each of some descriptions equals one of a list that is equal item by item. -/
theorem exists_same_of_mem {lefts rights : List Description} {left : Description}
    (equal : sameItems lefts rights = true) (member : left ∈ lefts) :
    ∃ right ∈ rights, left.same right = true := by
  -- The equal description stands at the same position of the other list.
  rw [sameItems_iff] at equal
  induction equal with
  | nil => cases member
  | cons here _ ih =>
    rcases List.mem_cons.mp member with rfl | later
    · exact ⟨_, List.mem_cons_self, here⟩
    · obtain ⟨right, found, same⟩ := ih later
      exact ⟨right, List.mem_cons_of_mem _ found, same⟩

/-- Equality of descriptions is transitive. -/
theorem same_trans {first second third : Description} (earlier : first.same second = true)
    (later : second.same third = true) : first.same third = true := by
  -- Equal descriptions have one shape, so the induction is on the first of the three.
  have items : ∀ {xs ys zs : List Description},
      (∀ x ∈ xs, ∀ {y z : Description}, x.same y = true → y.same z = true → x.same z = true) →
      sameItems xs ys = true → sameItems ys zs = true → sameItems xs zs = true := by
    intro xs ys zs ih earlier later
    rw [sameItems_iff] at earlier later ⊢
    induction earlier generalizing zs with
    | nil => exact later
    | cons here _ ihRest =>
      cases later with
      | cons next others =>
        obtain ⟨head, tail⟩ := List.forall_mem_cons.mp ih
        exact .cons (head here next) (ihRest tail others)
  induction first using induction_parts generalizing second third with
  -- In each case the other two have the shape of the first one.
  | atom value =>
    cases second <;> simp only [same, Bool.false_eq_true] at earlier
    cases third <;> simp only [same, Bool.false_eq_true] at later ⊢
    exact Value.sameAtomic_trans earlier later
  | range kind low high =>
    cases second <;> simp only [same, Bool.false_eq_true, Bool.and_eq_true, beq_iff_eq] at earlier
    cases third <;> simp only [same, Bool.false_eq_true, Bool.and_eq_true, beq_iff_eq] at later ⊢
    obtain ⟨⟨rfl, low⟩, high⟩ := earlier
    exact ⟨⟨later.1.1, Value.equals_trans low later.1.2⟩, Value.equals_trans high later.2⟩
  -- Limits are compared like bounds, and options one by one.
  | select limit options ih =>
    cases second <;> simp only [same, Bool.false_eq_true, Bool.and_eq_true] at earlier
    cases third <;> simp only [same, Bool.false_eq_true, Bool.and_eq_true] at later ⊢
    exact ⟨Value.equals_trans earlier.1 later.1, items ih earlier.2 later.2⟩
  | array members ih =>
    cases second <;> simp only [same, Bool.false_eq_true] at earlier
    cases third <;> simp only [same, Bool.false_eq_true] at later ⊢
    exact items ih earlier later
  | object value =>
    cases second <;> simp only [same, Bool.false_eq_true] at earlier
    cases third <;> simp only [same, Bool.false_eq_true] at later ⊢
    exact Value.equals_trans earlier later
  | union variants ih =>
    cases second <;> simp only [same, Bool.false_eq_true] at earlier
    cases third <;> simp only [same, Bool.false_eq_true] at later ⊢
    exact items ih earlier later

/-- A number lies between two bounds, both included. -/
def Between (low high : Value) (number : Number) : Prop :=
  low.atMost (.num number) = true ∧ (Value.num number).atMost high = true

/-- Equal bounds have the same numbers between them. -/
theorem Between.of_equals {low high low' high' : Value} {number : Number}
    (lows : low.equals low' = true) (highs : high.equals high' = true)
    (between : Between low high number) : Between low' high' number := by
  -- Equal bounds count as equal numbers, so what lies beyond one lies beyond the other.
  obtain ⟨below, above⟩ := between
  obtain ⟨least, countsLow, below⟩ := Value.atMost_num_iff.mp below
  obtain ⟨most, countsHigh, above⟩ := Value.num_atMost_iff.mp above
  constructor
  · rcases Value.quantities_of_equals lows with ⟨none, -⟩ | ⟨p, q, left, right, same⟩
    · cases none.symm.trans countsLow
    · cases left.symm.trans countsLow
      have lower := Number.atMost_of_equals (Number.equals_symm same)
      exact Value.atMost_num_iff.mpr ⟨q, right, Number.atMost_trans lower below⟩
  · rcases Value.quantities_of_equals highs with ⟨none, -⟩ | ⟨p, q, left, right, same⟩
    · cases none.symm.trans countsHigh
    · cases left.symm.trans countsHigh
      have upper := Number.atMost_of_equals same
      exact Value.num_atMost_iff.mpr ⟨q, right, Number.atMost_trans above upper⟩

/-- One alternative is equal to another, or its interval lies within that of the other. -/
inductive Inside : Description → Description → Prop where
  | refl (alternative : Description) : Inside alternative alternative
  | same {inner outer : Description} (equal : inner.same outer = true) : Inside inner outer
  | within {kind : RangeKind} {low high low' high' : Value}
      (wider : ∀ number, Between low high number → Between low' high' number) :
      Inside (.range kind low high) (.range kind low' high')

namespace Inside

/-- What equals a range is a range of equal bounds. -/
theorem of_same_range {kind : RangeKind} {low high : Value} {outer : Description}
    (equal : (Description.range kind low high).same outer = true) :
    ∃ low' high', outer = .range kind low' high' ∧
      ∀ number, Between low high number → Between low' high' number := by
  -- Nothing but a range of the same kind equals a range.
  cases outer <;>
    simp only [Description.same, Bool.false_eq_true, Bool.and_eq_true, beq_iff_eq] at equal
  obtain ⟨⟨rfl, lows⟩, highs⟩ := equal
  exact ⟨_, _, rfl, fun number => Between.of_equals lows highs⟩

/-- What is inside something inside is inside. -/
theorem trans {first second third : Description} (earlier : Inside first second)
    (later : Inside second third) : Inside first third := by
  -- Equalities and wider intervals compose in either order.
  cases earlier with
  | refl => exact later
  | same equal =>
    cases later with
    | refl => exact .same equal
    | same equal' => exact .same (same_trans equal equal')
    | @within kind low high low' high' wider =>
      -- What equals an interval is an interval with equal bounds.
      cases first <;>
        simp only [Description.same, Bool.false_eq_true, Bool.and_eq_true, beq_iff_eq] at equal
      obtain ⟨⟨rfl, lows⟩, highs⟩ := equal
      exact .within fun number between => wider number (between.of_equals lows highs)
  | within wider =>
    cases later with
    | refl => exact .within wider
    | same equal =>
      obtain ⟨low, high, rfl, wider'⟩ := of_same_range equal
      exact .within fun number between => wider' number (wider number between)
    | within wider' => exact .within fun number between => wider' number (wider number between)

end Inside

mutual

/-- The alternatives of a description, where choices of one option and unions are opened. -/
def leaves : Description → List Description
  | .unknown => []
  | .select limit options => if isSingle limit then leavesOf options else [.select limit options]
  | .union variants => leavesOf variants
  | other => [other]

/-- The alternatives of descriptions, one after the other. -/
def leavesOf : List Description → List Description
  | [] => []
  | item :: rest => leaves item ++ leavesOf rest

end

/-- The alternatives of several descriptions are those of each of them, in order. -/
theorem leavesOf_eq_flatMap (items : List Description) : leavesOf items = items.flatMap leaves := by
  -- Both sides open the descriptions one after the other.
  induction items with
  | nil => rfl
  | cons item rest ih => rw [leavesOf, ih, List.flatMap_cons]

/-- An alternative of one of some descriptions is one of all of them. -/
theorem mem_leavesOf {leaf : Description} {items : List Description} :
    leaf ∈ leavesOf items ↔ ∃ item ∈ items, leaf ∈ item.leaves := by
  rw [leavesOf_eq_flatMap, List.mem_flatMap]

/-- A known exact value is its only alternative. -/
theorem leaves_atom {value : Value} (known : value ≠ .null) :
    leaves (.atom value) = [.atom value] := by
  unfold leaves
  split <;> simp_all

/-- A choice of one has the alternatives of its options. -/
theorem leaves_single {limit : Value} (single : isSingle limit = true)
    (options : List Description) :
    leaves (.select limit options) = leavesOf options := by
  simp [leaves, single]

/-- A choice of several is its only alternative. -/
theorem leaves_several {limit : Value} (several : ¬ isSingle limit = true)
    (options : List Description) :
    leaves (.select limit options) = [.select limit options] := by
  simp [leaves, several]

/-- One description has every alternative of another. -/
def Covers (wide narrow : Description) : Prop :=
  ∀ leaf ∈ narrow.leaves, ∃ other ∈ wide.leaves, Inside leaf other

namespace Covers

/-- Every description covers itself. -/
theorem refl (description : Description) : description.Covers description :=
  fun leaf member => ⟨leaf, member, .refl leaf⟩

/-- What covers a cover of something covers it too. -/
theorem trans {wide middle narrow : Description} (outer : wide.Covers middle)
    (inner : middle.Covers narrow) : wide.Covers narrow := by
  -- An alternative is found again in the middle, and from there on the wide side.
  intro leaf member
  obtain ⟨between, member', inside⟩ := inner leaf member
  obtain ⟨other, found, inside'⟩ := outer between member'
  exact ⟨other, found, inside.trans inside'⟩

/-- What is unknown has no alternative. -/
theorem unknown (wide : Description) : wide.Covers .unknown := by
  intro leaf member
  cases member

end Covers

/-- An alternative inside another is covered by it. -/
theorem Covers.of_inside {wide narrow : Description} (left : narrow.leaves = [narrow])
    (right : wide.leaves = [wide]) (inside : Inside narrow wide) : wide.Covers narrow := by
  -- Each side has itself as its only alternative.
  intro leaf member
  rw [left, List.mem_singleton] at member
  exact ⟨wide, right ▸ List.mem_singleton_self wide, member ▸ inside⟩

/-- The limit of one allows one option. -/
theorem isSingle_one : isSingle (.int 1) = true := by decide +kernel

/-- Limits that are equal allow one option alike. -/
theorem isSingle_of_equals {limit limit' : Value} (same : limit.equals limit' = true) :
    isSingle limit = isSingle limit' := by
  -- Both limits count as equal numbers, if they count as numbers at all.
  rw [Bool.eq_iff_iff, isSingle, isSingle, Value.equals_num_iff, Value.equals_num_iff]
  rcases Value.quantities_of_equals same with ⟨left, right⟩ | ⟨p, q, left, right, equal⟩
  · simp [left, right]
  · simp only [left, right, Option.some.injEq, exists_eq_left']
    exact ⟨Number.equals_trans (Number.equals_symm equal), Number.equals_trans equal⟩

/-- Equal descriptions have equal alternatives. -/
theorem covers_of_same {left right : Description} (equal : left.same right = true) :
    right.Covers left := by
  -- Equal descriptions have one shape, so the induction is on the left one.
  have items : ∀ {lefts rights : List Description},
      (∀ left ∈ lefts, ∀ {right : Description}, left.same right = true → right.Covers left) →
      sameItems lefts rights = true →
      ∀ leaf ∈ leavesOf lefts, ∃ other ∈ leavesOf rights, Inside leaf other := by
    intro lefts rights ih equal leaf member
    obtain ⟨left, inside, ofLeft⟩ := mem_leavesOf.mp member
    obtain ⟨right, found, same⟩ := exists_same_of_mem equal inside
    obtain ⟨other, ofRight, within⟩ := ih left inside same leaf ofLeft
    exact ⟨other, mem_leavesOf.mpr ⟨right, found, ofRight⟩, within⟩
  induction left using induction_parts generalizing right with
  | atom value =>
    cases right <;> simp only [same, Bool.false_eq_true] at equal
    next value' =>
    by_cases known : value = .null
    · exact known ▸ Covers.unknown _
    · -- Only null equals null, so the other side is known as well.
      have known' : value' ≠ .null := by
        rintro rfl
        exact known (Value.eq_null_of_equals (Value.sameAtomic_iff.mp equal).1)
      exact .of_inside (leaves_atom known) (leaves_atom known') (.same equal)
  | range kind low high =>
    obtain ⟨low', high', rfl, wider⟩ := Inside.of_same_range equal
    exact .of_inside rfl rfl (.within wider)
  | select limit options ih =>
    have whole := equal
    cases right <;> simp only [same, Bool.false_eq_true, Bool.and_eq_true] at equal
    next limit' options' =>
    -- Equal limits open both choices or neither.
    have alike := isSingle_of_equals equal.1
    by_cases single : isSingle limit = true
    · rw [Covers, leaves_single single, leaves_single (alike ▸ single)]
      exact items ih equal.2
    · exact .of_inside (leaves_several single _) (leaves_several (alike ▸ single) _) (.same whole)
  | array members ih =>
    cases right <;> simp only [same, Bool.false_eq_true] at equal
    exact .of_inside rfl rfl (.same equal)
  | object value =>
    cases right <;> simp only [same, Bool.false_eq_true] at equal
    exact .of_inside rfl rfl (.same equal)
  | union variants ih =>
    cases right <;> simp only [same, Bool.false_eq_true] at equal
    exact items ih equal

end Description
end TrialScript
