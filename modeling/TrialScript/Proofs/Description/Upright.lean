import TrialScript.Proofs.Description.Kinds
import TrialScript.Proofs.Numeric.Ascending

/-! Ranges with their ends in order: merging and rounding keep them so, and calculating may not. -/

namespace TrialScript.Description

/-- Every range in a description, at any depth, has a lower end that is at most the upper one. -/
def Upright (description : Description) : Prop :=
  ∀ (kind : RangeKind) (low high : Value), Occurs (.range kind low high) description →
    low.atMost high = true

section Parts

variable {kind : RangeKind} {limit : Value} {items : List Description}

/-- Numbers are at most one another as values as they are on their own. -/
theorem atMost_num (low high : Number) :
    (Value.num low).atMost (.num high) = low.atMost high := by
  rw [Bool.eq_iff_iff, Value.atMost_num_iff]
  simp [Value.quantity?, Scalar.quantity?]

/-- An exact value has no range in it. -/
theorem upright_atom (value : Value) : (atom value).Upright := by
  intro kind low high occurs
  cases occurs

/-- A described mapping has no range in it. -/
theorem upright_object (value : Value) : (object value).Upright := by
  intro kind low high occurs
  cases occurs

/-- The only range in a range is the range itself. -/
theorem upright_range {low high : Number} :
    (range kind (.num low) (.num high)).Upright ↔ low.atMost high = true := by
  -- Nothing else is inside a range.
  rw [← atMost_num]
  constructor
  · intro upright
    exact upright _ _ _ .self
  · intro ordered _ _ _ occurs
    cases occurs
    exact ordered

/-- The ranges in a choice are those in its options. -/
theorem upright_select : (select limit items).Upright ↔ ∀ option ∈ items, option.Upright := by
  -- A choice is no range itself.
  constructor
  · intro upright option member kind low high inside
    exact upright kind low high (.option member inside)
  · intro each kind low high occurs
    cases occurs with
    | option member inside => exact each _ member kind low high inside

/-- The ranges in a list are those in its items. -/
theorem upright_array : (array items).Upright ↔ ∀ item ∈ items, item.Upright := by
  -- A list is no range itself.
  constructor
  · intro upright item member kind low high inside
    exact upright kind low high (.item member inside)
  · intro each kind low high occurs
    cases occurs with
    | item member inside => exact each _ member kind low high inside

/-- The ranges in a union are those in its variants. -/
theorem upright_union : (union items).Upright ↔ ∀ variant ∈ items, variant.Upright := by
  -- A union is no range itself.
  constructor
  · intro upright variant member kind low high inside
    exact upright kind low high (.variant member inside)
  · intro each kind low high occurs
    cases occurs with
    | variant member inside => exact each _ member kind low high inside

end Parts

/-- A numeric description whose ranges have their ends in order. -/
structure Level (description : Description) : Prop where
  numeric : description.Numeric
  upright : description.Upright

namespace Level

variable {limit : Value} {items : List Description} {description left right : Description}

/-- A choice is level if its options are. -/
theorem select (each : ∀ option ∈ items, option.Level) : (Description.select limit items).Level :=
  ⟨.select trivial fun option member => (each option member).numeric,
    upright_select.mpr fun option member => (each option member).upright⟩

/-- A range between numbers in order is level. -/
theorem range {kind : RangeKind} {low high : Number} (ordered : low.atMost high = true) :
    (Description.range kind (.num low) (.num high)).Level :=
  ⟨Numeric.range kind low high, upright_range.mpr ordered⟩

/-- Being level goes to and comes from parts, and ranges are widened outwards. -/
theorem hereditary : Hereditary Level where
  unknown := ⟨.atom trivial, upright_atom .null⟩
  options level option member :=
    ⟨Numeric.hereditary.options level.numeric option member,
      upright_select.mp level.upright option member⟩
  oneOf := select
  variants level variant member :=
    ⟨Numeric.hereditary.variants level.numeric variant member,
      upright_union.mp level.upright variant member⟩
  union each :=
    ⟨.union trivial fun variant member => (each variant member).numeric,
      upright_union.mpr fun variant member => (each variant member).upright⟩
  widened level level' := by
    obtain ⟨numeric, upright⟩ := level
    obtain ⟨numeric', upright'⟩ := level'
    obtain ⟨_⟩ := numeric.meets
    obtain ⟨_⟩ := numeric'.meets
    rw [upright_range] at upright upright'
    obtain ⟨defined, defined'⟩ := Number.not_isNaN_of_atMost upright
    obtain ⟨others, others'⟩ := Number.not_isNaN_of_atMost upright'
    -- The smaller lower end is at most the one that it was, and so on upwards.
    have below := (Number.least_atMost defined others).1
    have above := (Number.atMost_greatest defined' others').1
    exact ⟨_, _, widen_num _ _ _ _,
      range (Number.atMost_trans (Number.atMost_trans below upright) above)⟩

/-- The description of a known value has no range in it. -/
theorem ofLiteral (value : Value) : (Description.ofLiteral value).Level := by
  refine ⟨Numeric.ofLiteral value, ?_⟩
  -- Lists are described item by item, mappings as a whole.
  induction value using Value.induction_parts with
  | list items ih =>
    rw [Description.ofLiteral, ofLiterals_eq_map]
    exact upright_array.mpr (List.forall_mem_map.mpr ih)
  | dict fields _ => exact upright_object _
  | scalar | date | datetime => exact upright_atom _

/-- Rounding keeps descriptions level. -/
theorem round (level : description.Level) : Gives Level description.round := by
  obtain ⟨numeric, upright⟩ := level
  -- The induction is on the description; only ranges of fractions are rounded at both ends.
  induction numeric with
  | atom meets =>
    rw [Description.round]
    split
    · exact .bind (.any _) fun number _ => .ok ⟨.atom trivial, upright_atom _⟩
    · exact .ok ⟨.atom meets, upright⟩
  | @range kind _ _ bounds =>
    obtain ⟨_⟩ := bounds
    rw [upright_range] at upright
    cases kind with
    | integer => exact .ok (range upright)
    -- Rounding is monotone, so the rounded ends are in order as the ends were.
    | float =>
      intro result made
      obtain ⟨_, lower, made⟩ := check_bind_ok made
      obtain ⟨_, upper, made⟩ := check_bind_ok made
      obtain ⟨least, roundedLow, ⟨⟩⟩ := check_bind_ok lower
      obtain ⟨most, roundedHigh, ⟨⟩⟩ := check_bind_ok upper
      cases made
      exact range (Number.roundHalfAway_mono upright roundedLow roundedHigh)
  -- The options keep their order among themselves and are level one by one.
  | select _ _ ih =>
    have each := upright_select.mp upright
    rw [Description.round, roundItems_eq_mapM]
    exact .bind (.mapM fun option member => ih option member (each option member))
      fun others level => .ok (select level)
  | union _ _ ih =>
    have each := upright_union.mp upright
    rw [Description.round, roundItems_eq_mapM]
    exact .bind (.mapM fun variant member => ih variant member (each variant member))
      fun others level => .ok (hereditary.unionOf level)
  | array meets each => exact .ok ⟨.array meets each, upright⟩
  | object meets => exact .ok ⟨.object meets, upright⟩

/-- Being level comes from parts. -/
theorem composed : Composed Level where
  scalar value := ⟨.atom trivial, upright_atom _⟩
  counted count := range (Number.int_atMost_int (Int.natCast_nonneg count))
  chosen := select
  array := by
    intro items
    constructor
    · intro level item member
      exact ⟨Numeric.lasting.array.mp level.numeric item member,
        upright_array.mp level.upright item member⟩
    · intro each
      exact ⟨.array trivial fun item member => (each item member).numeric,
        upright_array.mpr fun item member => (each item member).upright⟩
  field _ _ := ofLiteral _
  round := round

end Level

/--
Calculating with two descriptions turns two parts with their ends in order into a range without.

At least one part is a range. Where the function keeps such ends in order, one of the numbers that
were calculated with or came out is undefined.
-/
inductive Inverts (function : Arithmetic) (left right : Description) : Prop where
  | intro {kind kind' : Option RangeKind} {low high low' high' least most : Number}
      (first : left.Part kind low high) (second : right.Part kind' low' high')
      (ranged : joinedKind kind kind' ≠ none) (lower : function.apply low low' = .ok least)
      (upper : function.apply high high' = .ok most) (inverted : least.atMost most = false)
      (unsure : function.Ascends low high low' high' →
        ∃ n ∈ [low, low', least, most], n.isNaN = true) : Inverts function left right

/-- A part of a level description has its ends in order, unless it is an undefined number. -/
theorem Part.atMost {description : Description} {kind : Option RangeKind} {low high : Number}
    (part : description.Part kind low high) (upright : description.Upright)
    (defined : low.isNaN = false) : low.atMost high = true := by
  -- By induction on the way to the part, which ends at a number or at a range.
  induction part with
  | bounds bounds =>
    cases bounds with
    | number n => exact Number.atMost_of_equals (Number.equals_self defined)
    | range => exact upright_range.mp upright
  | option member _ ih => exact ih (upright_select.mp upright _ member)

/-- Calculating with level descriptions gives one, unless it inverts a range. -/
theorem Level.combine {function : Arithmetic} {left right : Description} (first : left.Level)
    (second : right.Level) (keeps : ¬ left.Inverts function right) :
    Gives Level (left.combine function right) := by
  intro result made
  refine ⟨Numeric.lasting.combine first.numeric second.numeric result made, ?_⟩
  intro kind low high occurs
  have ranges := ranges_combine first.numeric second.numeric made
  obtain ⟨least, most, rfl, rfl, stems⟩ := (ranges kind low high).mp occurs
  obtain ⟨part, part', joined, lower, upper⟩ := stems
  -- A range that comes out inverted is one of the calculation.
  rw [atMost_num]
  by_contra inverted
  refine keeps (.intro part part' (by simp [joined]) lower upper (by simpa using inverted) ?_)
  intro ascends
  by_contra defined
  simp only [List.mem_cons, List.not_mem_nil, or_false, exists_eq_or_imp, exists_eq_left,
    not_or, Bool.not_eq_true] at defined
  obtain ⟨definedLow, definedLow', definedLeast, definedMost⟩ := defined
  -- Both parts have their ends in order, and the function keeps them so.
  exact inverted (ascends.atMost (part.atMost first.upright definedLow)
    (part'.atMost second.upright definedLow') lower upper definedLeast definedMost)

end TrialScript.Description
