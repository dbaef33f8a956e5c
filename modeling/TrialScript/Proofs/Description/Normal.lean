import TrialScript.Proofs.Description.Describes
import TrialScript.Proofs.Description.Keyed
import TrialScript.Proofs.Description.Lasting

/-! Normal form: unions with several distinct variants, none unknown or a union, at every depth. -/

namespace TrialScript.Description

/-- Variants of a union in normal form: several, all of them known, none a union, no two equal. -/
structure Separate (variants : List Description) : Prop where
  several : 2 ≤ variants.length
  known : .unknown ∉ variants
  flat : ∀ inner, .union inner ∉ variants
  apart : variants.Pairwise fun left right => left.same right = false ∧ right.same left = false

/-- An exact value has no parts, and the variants of a union are in normal form. -/
abbrev Normal.Here : Description → Prop
  | .atom value => value.Atomic
  | .union variants => Separate variants
  | _ => True

/-- A description whose unions are in normal form at every depth, and whose exact values have no parts. -/
abbrev Normal : Description → Prop :=
  Throughout Normal.Here

section Distinct

/-- What is left without repetitions equals nothing before it. -/
theorem pairwise_distinct (items : List Description) :
    (distinct items).Pairwise fun earlier later => later.same earlier = false := by
  -- An item is added only where nothing that was kept so far equals it.
  have general : ∀ (items seen : List Description),
      seen.Pairwise (fun earlier later => later.same earlier = false) →
      (items.foldl addNew seen).Pairwise fun earlier later => later.same earlier = false := by
    intro items
    induction items with
    | nil => exact fun seen apart => apart
    | cons next rest ih =>
      intro seen apart
      refine ih _ ?_
      unfold addNew
      split
      · exact apart
      -- Nothing that was kept equals the added item, which is what the test has found.
      · next fresh =>
        rw [List.pairwise_append]
        refine ⟨apart, List.pairwise_singleton _ _, fun earlier inside later added => ?_⟩
        cases List.mem_singleton.mp added
        simp only [List.any_eq_true, not_exists, not_and, Bool.not_eq_true] at fresh
        exact fresh earlier inside
  exact general items [] .nil

/-- Nothing is dropped where nothing equals anything before it. -/
theorem distinct_eq_self {items : List Description}
    (apart : items.Pairwise fun earlier later => later.same earlier = false) :
    distinct items = items := by
  -- The fold adds every item behind those that were kept so far.
  have general : ∀ (items seen : List Description),
      (seen ++ items).Pairwise (fun earlier later => later.same earlier = false) →
      items.foldl addNew seen = seen ++ items := by
    intro items
    induction items with
    | nil => exact fun seen _ => (List.append_nil seen).symm
    | cons next rest ih =>
      intro seen apart
      -- The next item is apart from all that were kept, so it is added.
      have fresh : seen.any (same next) = false := by
        rw [List.any_eq_false]
        intro earlier inside
        rw [(List.pairwise_append.mp apart).2.2 earlier inside next List.mem_cons_self]
        exact Bool.false_ne_true
      rw [List.foldl_cons, addNew, if_neg (by simp [fresh]), ih]
      · exact List.append_assoc seen [next] rest
      · rwa [List.append_assoc]
  exact general items [] apart

end Distinct

section Unions

variable {description piece : Description} {variants : List Description}

/-- A known description that is no union stands for itself alone. -/
theorem alternatives_eq_singleton (known : piece ≠ .unknown) (flat : ∀ inner, piece ≠ .union inner) :
    piece.alternatives = [piece] := by
  -- The definition splits on just these two cases.
  unfold alternatives
  split
  · exact absurd rfl known
  · next inner => exact absurd rfl (flat inner)
  · rfl

/-- A variant of a union in normal form stands for itself alone. -/
theorem Separate.alternatives_eq (separate : Separate variants) (member : piece ∈ variants) :
    piece.alternatives = [piece] := by
  -- The variants of such a union are known and no unions.
  refine alternatives_eq_singleton ?_ ?_
  · rintro rfl
    exact separate.known member
  · rintro inner rfl
    exact separate.flat inner member

/-- Variants that stand for themselves alone are opened to themselves. -/
theorem flatMap_alternatives (alone : ∀ variant ∈ variants, variant.alternatives = [variant]) :
    variants.flatMap alternatives = variants := by
  rw [List.flatMap_congr alone]
  exact List.flatMap_pure_eq_map id variants |>.trans (List.map_id variants)

/-- Several distinct alternatives make a union. -/
theorem unionOf_of_several (several : 2 ≤ (distinct (variants.flatMap alternatives)).length) :
    unionOf variants = .union (distinct (variants.flatMap alternatives)) := by
  -- No alternative or a single one would be too few.
  unfold unionOf
  split
  · next none => simp [none] at several
  · next variant one => simp [one] at several
  · rfl

/-- Variants in normal form make the union of themselves. -/
theorem unionOf_of_separate (separate : Separate variants) : unionOf variants = .union variants := by
  -- Each variant stands for itself, and none is dropped as a repetition.
  have kept : distinct variants = variants :=
    distinct_eq_self (separate.apart.imp fun apart => apart.2)
  have opened := flatMap_alternatives fun _ => separate.alternatives_eq
  rw [unionOf_of_several, opened, kept]
  rw [opened, kept]
  exact separate.several

/-- What distinct alternatives of keyed descriptions are left, no two of them are equal either way. -/
theorem apart_distinct {pieces : List Description} (keyed : ∀ piece ∈ pieces, piece.Keyed) :
    (distinct pieces).Pairwise fun left right => left.same right = false ∧ right.same left = false := by
  refine (pairwise_distinct pieces).imp_of_mem ?_
  intro left right inLeft inRight apart
  refine ⟨?_, apart⟩
  -- Were they equal this way around, they would be so the other way around.
  rw [← Bool.not_eq_true] at apart ⊢
  intro equal
  exact apart ((keyed left (mem_of_mem_distinct inLeft)).same_symm
    (keyed right (mem_of_mem_distinct inRight)) equal)

end Unions

/-- A description in normal form whose mappings name every field once. -/
def Sound (description : Description) : Prop :=
  description.Normal ∧ description.Keyed

section Sound

variable {limit low high : Value} {items options variants : List Description}

/-- A range is sound if the mappings in its bounds name every field once. -/
theorem sound_range {kind : RangeKind} :
    (range kind low high).Sound ↔ low.Keyed ∧ high.Keyed := by
  -- A range has no parts that could be out of normal form.
  constructor
  · intro ⟨_, keyed⟩
    exact keyed.meets
  · intro keyed
    exact ⟨.range trivial, .range keyed⟩

/-- A choice is sound if its limit and its options are. -/
theorem sound_select :
    (select limit options).Sound ↔ limit.Keyed ∧ ∀ option ∈ options, option.Sound := by
  -- Both conditions hold throughout, so each is taken apart into here and inside.
  constructor
  · intro ⟨normal, keyed⟩
    exact ⟨keyed.meets, fun option member =>
      ⟨normal.options option member, keyed.options option member⟩⟩
  · intro ⟨keyed, each⟩
    exact ⟨.select trivial fun option member => (each option member).1,
      .select keyed fun option member => (each option member).2⟩

/-- A list is sound if its items are. -/
theorem sound_array : (array items).Sound ↔ ∀ item ∈ items, item.Sound := by
  -- Both conditions hold throughout, so each is taken apart into here and inside.
  constructor
  · intro ⟨normal, keyed⟩ item member
    exact ⟨normal.items item member, keyed.items item member⟩
  · intro each
    exact ⟨.array trivial fun item member => (each item member).1,
      .array trivial fun item member => (each item member).2⟩

/-- A union is sound if its variants are, and are in normal form. -/
theorem sound_union :
    (union variants).Sound ↔ Separate variants ∧ ∀ variant ∈ variants, variant.Sound := by
  -- Both conditions hold throughout, so each is taken apart into here and inside.
  constructor
  · intro ⟨normal, keyed⟩
    exact ⟨normal.meets, fun variant member =>
      ⟨normal.variants variant member, keyed.variants variant member⟩⟩
  · intro ⟨separate, each⟩
    exact ⟨.union separate fun variant member => (each variant member).1,
      .union trivial fun variant member => (each variant member).2⟩

/-- An exact value without parts is sound. -/
theorem sound_atom {value : Value} (atomic : value.Atomic) : (atom value).Sound :=
  ⟨.atom atomic, .atom atomic.keyed⟩

/-- The alternatives of a sound description are sound, known and no unions. -/
theorem Sound.of_mem_alternatives {description piece : Description} (sound : description.Sound)
    (member : piece ∈ description.alternatives) :
    piece.Sound ∧ piece ≠ .unknown ∧ ∀ inner, piece ≠ .union inner := by
  -- What is unknown has no alternatives, a union has its variants, and the rest has itself.
  unfold alternatives at member
  split at member
  · cases member
  · obtain ⟨separate, each⟩ := sound_union.mp sound
    refine ⟨each piece member, ?_, ?_⟩
    · rintro rfl
      exact separate.known member
    · rintro inner rfl
      exact separate.flat inner member
  · next unknown union =>
    cases List.mem_singleton.mp member
    exact ⟨sound, unknown, union⟩

/-- The union of sound variants is sound, whether they are unions themselves or not. -/
theorem sound_unionOf (each : ∀ variant ∈ variants, variant.Sound) : (unionOf variants).Sound := by
  -- All pieces come from sound variants, and telling them apart takes none of the rest away.
  have pieces : ∀ piece ∈ variants.flatMap alternatives,
      piece.Sound ∧ piece ≠ .unknown ∧ ∀ inner, piece ≠ .union inner := by
    intro piece member
    obtain ⟨variant, inside, ofVariant⟩ := List.mem_flatMap.mp member
    exact (each variant inside).of_mem_alternatives ofVariant
  -- What is kept is one of the pieces.
  have kept : ∀ piece ∈ distinct (variants.flatMap alternatives),
      piece.Sound ∧ piece ≠ .unknown ∧ ∀ inner, piece ≠ .union inner :=
    fun piece member => pieces piece (mem_of_mem_distinct member)
  have apart := apart_distinct fun piece member => (pieces piece member).1.2
  unfold unionOf
  split
  · exact sound_atom trivial
  · next variant one => exact (kept variant (one ▸ List.mem_singleton_self variant)).1
  · next none one =>
    refine sound_union.mpr ⟨⟨?_, ?_, ?_, apart⟩, fun piece member => (kept piece member).1⟩
    · -- With less than two variants one of the other cases would have applied.
      match listed : distinct (variants.flatMap alternatives) with
      | [] => exact absurd listed none
      | [variant] => exact absurd listed (one variant)
      | first :: second :: rest => simp
    · exact fun member => (kept _ member).2.1 rfl
    · exact fun inner member => (kept _ member).2.2 inner rfl

/-- A known value whose mappings name every field once has a sound description. -/
theorem sound_ofLiteral {value : Value} (keyed : value.Keyed) : (ofLiteral value).Sound := by
  -- Lists become lists of descriptions, and mappings stay as they are.
  induction keyed with
  | scalar value => exact sound_atom trivial
  | list _ ih =>
    rw [ofLiteral, ofLiterals_eq_map, sound_array, List.forall_mem_map]
    exact ih
  | dict distinct each _ => exact ⟨.object trivial, .object (.dict distinct each)⟩
  | date day => exact sound_atom trivial
  | datetime moment => exact sound_atom trivial

/-- Soundness lasts through everything that is done with descriptions. -/
theorem Sound.lasting : Lasting Value.Keyed Sound where
  number n := .scalar (.num n)
  calculated left right := left.onValues right
  scalar value := sound_atom trivial
  range := sound_range
  options sound := (sound_select.mp sound).2
  exchanged sound each := sound_select.mpr ⟨(sound_select.mp sound).1, each⟩
  chosen each := sound_select.mpr ⟨.scalar _, each⟩
  array := sound_array
  variants sound := (sound_union.mp sound).2
  unionOf := sound_unionOf
  field := by
    intro fields name value ⟨_, keyed⟩ found
    have fieldsKeyed : (Value.dict fields).Keyed := keyed.meets
    cases fieldsKeyed with
    | dict distinct each => exact sound_ofLiteral (each _ (Table.mem_of_lookup? found))

end Sound
end TrialScript.Description
