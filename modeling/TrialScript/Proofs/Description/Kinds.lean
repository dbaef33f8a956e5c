import TrialScript.Proofs.Description.Intervals
import TrialScript.Proofs.Description.Reckoning
import TrialScript.Proofs.Numeric.Integral

/-! Kinds of calculated ranges: they come from the kinds of ranges alone, whatever is calculated. -/

namespace TrialScript.Description

/-- A number, a range between numbers that are whole for integers, or a choice of one. -/
abbrev Truthful.Here : Description → Prop
  | .atom value => ∃ n, value = .num n
  | .range kind low high =>
    Numbers (fun low high => kind = .integer → low.Integral ∧ high.Integral) low high
  | .select limit _ => isSingle limit = true
  | _ => False

/-- Numbers, ranges between numbers, and choices of one of these; a range of integers has whole bounds. -/
abbrev Truthful : Description → Prop :=
  Throughout Truthful.Here

/-- The kind and the bounds of a range; a number has no kind and is both of its bounds. -/
inductive Bounds : Description → Option RangeKind → Number → Number → Prop where
  | number (n : Number) : Bounds (.atom (.num n)) none n n
  | range (kind : RangeKind) (low high : Number) :
      Bounds (.range kind (.num low) (.num high)) (some kind) low high

/-- A number or a range is part of a description: the whole of it, or part of an option. -/
inductive Part (kind : Option RangeKind) (low high : Number) : Description → Prop where
  | bounds {description : Description} (bounds : Bounds description kind low high) :
      Part kind low high description
  | option {limit : Value} {option : Description} {options : List Description}
      (member : option ∈ options) (inside : Part kind low high option) :
      Part kind low high (.select limit options)

/-- The kind of what is calculated from two parts, of which a number leaves the kind to the other. -/
def joinedKind : Option RangeKind → Option RangeKind → Option RangeKind
  | none, kind => kind
  | kind, none => kind
  | some kind, some kind' => some (mixedKind kind kind')

/-- A kind and two bounds come from one part on either side: bounds from bounds, the kind from the kinds. -/
inductive Stems (function : Arithmetic) (left right : Description) (kind : Option RangeKind)
    (least most : Number) : Prop where
  | intro {kindLeft kindRight : Option RangeKind} {low high low' high' : Number}
      (first : left.Part kindLeft low high) (second : right.Part kindRight low' high')
      (joined : joinedKind kindLeft kindRight = kind)
      (lower : function.apply low low' = .ok least)
      (upper : function.apply high high' = .ok most) : Stems function left right kind least most

section Parts

variable {description : Description} {limit : Value} {options : List Description}
  {kind kind' : Option RangeKind} {low high low' high' : Number}

/-- A number or a range has no part but itself. -/
theorem Bounds.part_iff (bounds : description.Bounds kind low high) :
    description.Part kind' low' high' ↔ kind' = kind ∧ low' = low ∧ high' = high := by
  -- Only a choice has parts inside, and what has bounds is no choice.
  constructor
  · intro part
    cases part with
    | bounds other => cases bounds <;> cases other <;> exact ⟨rfl, rfl, rfl⟩
    | option => cases bounds
  · intro same
    obtain ⟨rfl, rfl, rfl⟩ := same
    exact .bounds bounds

/-- The parts of a choice are those of its options. -/
theorem part_select_iff : (select limit options).Part kind low high ↔
    ∃ option ∈ options, option.Part kind low high := by
  -- A choice has no bounds of its own.
  constructor
  · intro part
    cases part with
    | bounds bounds => cases bounds
    | option member inside => exact ⟨_, member, inside⟩
  · intro found
    obtain ⟨option, member, inside⟩ := found
    exact .option member inside

/-- The ranges in a choice are those in its options. -/
theorem occurs_range_select_iff {range : RangeKind} {least most : Value} :
    Occurs (.range range least most) (select limit options) ↔
      ∃ option ∈ options, Occurs (.range range least most) option := by
  -- A choice is no range, so a range in it is in one of its options.
  constructor
  · intro occurs
    cases occurs with
    | option member inside => exact ⟨_, member, inside⟩
  · intro found
    obtain ⟨option, member, inside⟩ := found
    exact .option member inside

/-- The only range in a number or a range is the range itself. -/
theorem Bounds.occurs_range_iff (bounds : description.Bounds kind low high) {range : RangeKind}
    {least most : Value} : Occurs (.range range least most) description ↔
      kind = some range ∧ least = .num low ∧ most = .num high := by
  -- Nothing is inside a number or a range.
  constructor
  · intro occurs
    cases bounds <;> cases occurs
    exact ⟨rfl, rfl, rfl⟩
  · intro same
    obtain ⟨rfl, rfl, rfl⟩ := same
    cases bounds
    exact .self

/-- Every part of a truthful description that is no range of fractions has whole bounds, if its numbers do. -/
theorem Truthful.integral (truthful : description.Truthful)
    (numbers : ∀ n, description.Part none n n → n.Integral) (part : description.Part kind low high)
    (notFloat : kind ≠ some .float) : low.Integral ∧ high.Integral := by
  -- The induction goes down to the number or the range, past choices alone.
  induction truthful with
  | atom number =>
    obtain ⟨n, rfl⟩ := number
    obtain ⟨rfl, rfl, rfl⟩ := (Bounds.number n).part_iff.mp part
    exact ⟨numbers _ part, numbers _ part⟩
  | @range kind _ _ bounds =>
    obtain ⟨honest⟩ := bounds
    obtain ⟨rfl, rfl, rfl⟩ := (Bounds.range kind _ _).part_iff.mp part
    cases kind with
    | float => exact absurd rfl notFloat
    | integer => exact honest rfl
  | select _ _ ih =>
    obtain ⟨option, member, inside⟩ := part_select_iff.mp part
    exact ih option member (fun n here => numbers n (.option member here)) inside
  | array never | object never | union never => exact never.elim

/-- Only parts that are no ranges of fractions have the kind of integers in common. -/
theorem notFloat_of_joinedKind (joined : joinedKind kind kind' = some .integer) :
    kind ≠ some .float ∧ kind' ≠ some .float := by
  rcases kind with _ | _ | _ <;> rcases kind' with _ | _ | _ <;>
    first | exact ⟨by decide, by decide⟩ | cases joined

end Parts

section Calculated

variable {function : Arithmetic} {left right result : Description} {limit : Value}
  {options results : List Description}

/-- The ranges in a result are those of some kinds and between some numbers. -/
def Ranges (sources : Option RangeKind → Number → Number → Prop) (result : Description) : Prop :=
  ∀ (kind : RangeKind) (low high : Value), Occurs (.range kind low high) result ↔
    ∃ least most, low = .num least ∧ high = .num most ∧ sources (some kind) least most

/-- A function that has a result for two numbers gives the number that it comes to. -/
theorem apply_of_onValues {x y : Number} {value : Value}
    (gave : function.onValues (.num x) (.num y) = .ok value) :
    ∃ n, function.apply x y = .ok n ∧ value = .num n := by
  rw [function.onValues_num] at gave
  obtain ⟨n, applied, gave⟩ := check_bind_ok gave
  cases gave
  exact ⟨n, applied, rfl⟩

/-- What is calculated from two numbers or ranges has bounds from bounds, and a kind from kinds. -/
theorem combineSimple_bounds {kind kind' : Option RangeKind} {low high low' high' : Number}
    (first : left.Bounds kind low high) (second : right.Bounds kind' low' high')
    (made : combineSimple function left right = .ok result) :
    ∃ least most, function.apply low low' = .ok least ∧ function.apply high high' = .ok most ∧
      result.Bounds (joinedKind kind kind') least most := by
  cases first <;> cases second
  case number.number =>
    obtain ⟨value, gave, made⟩ := check_bind_ok made
    obtain ⟨n, applied, rfl⟩ := apply_of_onValues gave
    cases made
    exact ⟨n, n, applied, applied, .number n⟩
  -- With a range on either side, both bounds of the result are calculated.
  all_goals
    obtain ⟨low, gave, made⟩ := check_bind_ok made
    obtain ⟨high, gave', made⟩ := check_bind_ok made
    obtain ⟨least, lower, rfl⟩ := apply_of_onValues gave
    obtain ⟨most, upper, rfl⟩ := apply_of_onValues gave'
    cases made
    exact ⟨least, most, lower, upper, .range _ _ _⟩

/-- Of two numbers or ranges, a calculated range comes from the two of them. -/
theorem ranges_bounds {kind kind' : Option RangeKind} {low high low' high' : Number}
    (first : left.Bounds kind low high) (second : right.Bounds kind' low' high')
    (made : combineSimple function left right = .ok result) :
    result.Ranges (Stems function left right) := by
  obtain ⟨least, most, lower, upper, bounds⟩ := combineSimple_bounds first second made
  intro range low high
  rw [bounds.occurs_range_iff]
  constructor
  · intro same
    obtain ⟨joined, rfl, rfl⟩ := same
    exact ⟨least, most, rfl, rfl, .intro (.bounds first) (.bounds second) joined lower upper⟩
  · intro found
    obtain ⟨least', most', rfl, rfl, part, part', joined, lower', upper'⟩ := found
    -- There is no other part on either side to come from.
    obtain ⟨rfl, rfl, rfl⟩ := first.part_iff.mp part
    obtain ⟨rfl, rfl, rfl⟩ := second.part_iff.mp part'
    cases lower.symm.trans lower'
    cases upper.symm.trans upper'
    exact ⟨joined, rfl, rfl⟩

/-- Where the ranges in each result come from an option, those in the choice of results do. -/
theorem ranges_select {sources : Description → Option RangeKind → Number → Number → Prop}
    (each : List.Forall₂ (fun option result => result.Ranges (sources option)) options results) :
    (select limit results).Ranges fun kind least most =>
      ∃ option ∈ options, sources option kind least most := by
  -- The results stand beside the options they were made of, so either is found from the other.
  intro kind low high
  rw [occurs_range_select_iff]
  constructor
  · intro found
    obtain ⟨result, member, inside⟩ := found
    obtain ⟨option, present, ranges⟩ := exists_of_mem_right each member
    obtain ⟨least, most, lower, upper, stems⟩ := (ranges kind low high).mp inside
    exact ⟨least, most, lower, upper, option, present, stems⟩
  · intro found
    obtain ⟨least, most, lower, upper, option, present, stems⟩ := found
    obtain ⟨result, member, ranges⟩ := exists_of_mem_right each.flip present
    exact ⟨result, member, (ranges kind low high).mpr ⟨least, most, lower, upper, stems⟩⟩

/-- What comes from parts of a choice on the right comes from parts of one of its options. -/
theorem stems_select_right : Stems function left (.select limit options) =
    fun kind least most => ∃ option ∈ options, Stems function left option kind least most := by
  -- The part on the right is in an option; that on the left stays as it is.
  funext kind least most
  refine propext ⟨?_, ?_⟩
  · intro stems
    obtain ⟨first, second, joined, lower, upper⟩ := stems
    obtain ⟨option, member, inside⟩ := part_select_iff.mp second
    exact ⟨option, member, first, inside, joined, lower, upper⟩
  · intro found
    obtain ⟨option, member, first, inside, joined, lower, upper⟩ := found
    exact ⟨first, .option member inside, joined, lower, upper⟩

/-- What comes from parts of a choice on the left comes from parts of one of its options. -/
theorem stems_select_left : Stems function (.select limit options) right =
    fun kind least most => ∃ option ∈ options, Stems function option right kind least most := by
  -- The part on the left is in an option; that on the right stays as it is.
  funext kind least most
  refine propext ⟨?_, ?_⟩
  · intro stems
    obtain ⟨first, second, joined, lower, upper⟩ := stems
    obtain ⟨option, member, inside⟩ := part_select_iff.mp first
    exact ⟨option, member, inside, second, joined, lower, upper⟩
  · intro found
    obtain ⟨option, member, inside, second, joined, lower, upper⟩ := found
    exact ⟨.option member inside, second, joined, lower, upper⟩

/-- Where there are no two parts to come from, nothing known comes from them. -/
theorem ranges_unknown (none : ∀ {kind kind' low high low' high'},
    left.Part kind low high → ¬ right.Part kind' low' high') :
    Description.unknown.Ranges (Stems function left right) := by
  -- Nothing occurs in what is unknown, and by assumption nothing has to.
  intro kind low high
  constructor
  · intro occurs
    cases occurs
  · intro found
    obtain ⟨_, _, -, -, first, second, -⟩ := found
    exact (none first second).elim

/-- Only what a calculation can say something about has parts. -/
theorem Part.isOperand {description : Description} {kind : Option RangeKind} {low high : Number}
    (part : description.Part kind low high) : description.isOperand = true := by
  cases part with
  | bounds bounds => cases bounds <;> rfl
  | option => rfl

/-- With a number or a range on the left, the ranges in a result come from parts of both sides. -/
theorem combineSimple_ranges {kind : Option RangeKind} {low high : Number}
    (first : left.Bounds kind low high) (numeric : right.Numeric)
    (made : combineSimple function left right = .ok result) :
    result.Ranges (Stems function left right) := by
  -- The induction is on the right side, whose options are combined one by one.
  induction numeric generalizing result with
  | @atom value _ =>
    -- A value that is no number has no bounds, so nothing known comes from it.
    cases known : value.number? with
    | none =>
      have unknown : result = .unknown := by
        simp only [combineSimple, known] at made
        cases made
        rfl
      rw [unknown]
      refine ranges_unknown fun _ part => ?_
      cases part with
      | bounds bounds =>
        cases bounds
        cases known
    | some n =>
      cases Value.number?_eq_some.mp known
      exact ranges_bounds first (.number n) made
  | range bounds =>
    obtain ⟨_⟩ := bounds
    exact ranges_bounds first (.range _ _ _) made
  -- A choice on the right has the parts of its options, and so has the choice of results.
  | @select limit options _ _ ih =>
    obtain ⟨results, combined, made⟩ := check_bind_ok made
    cases made
    rw [combineOptions_eq_mapM] at combined
    rw [stems_select_right]
    exact ranges_select (Gives.forall₂_mapM (fun option member _ made => ih option member made)
      results combined)
  -- Anything else has no parts, and its result is unknown.
  | array | object | union =>
    cases made
    refine ranges_unknown fun _ part => ?_
    cases part with
    | bounds bounds => cases bounds

/-- The ranges in a result come from parts of both sides. -/
theorem ranges_combine (numericLeft : left.Numeric) (numericRight : right.Numeric)
    (made : combine function left right = .ok result) :
    result.Ranges (Stems function left right) := by
  -- The induction is on the left side, whose options are combined one by one.
  induction numericLeft generalizing result with
  -- A value on the left is a number, or it is no operand and has no parts either.
  | atom =>
    rw [combine] at made
    split at made
    · next operand =>
      obtain ⟨n, rfl⟩ := eq_num_of_isOperand operand
      exact combineSimple_ranges (.number n) numericRight made
    · next apart =>
      cases made
      exact ranges_unknown fun part _ => apart part.isOperand
  | range bounds =>
    obtain ⟨_⟩ := bounds
    exact combineSimple_ranges (.range _ _ _) numericRight made
  -- The choice is exchanged option by option, if the right side is an operand.
  | @select limit options _ _ ih =>
    rw [combine] at made
    split at made
    · obtain ⟨results, combined, made⟩ := check_bind_ok made
      cases made
      rw [combineEach_eq_mapM] at combined
      rw [stems_select_left]
      exact ranges_select (Gives.forall₂_mapM (fun option member _ made => ih option member made)
        results combined)
    · next apart =>
      cases made
      exact ranges_unknown fun _ part => apart part.isOperand
  | array | object | union =>
    cases made
    refine ranges_unknown fun part _ => ?_
    cases part with
    | bounds bounds => cases bounds

/-- A truthful description is a numeric one. -/
theorem Truthful.numeric {description : Description} (truthful : description.Truthful) :
    description.Numeric := by
  -- Only the condition on ranges has something to give: that their bounds are numbers.
  refine truthful.mono fun description meets => ?_
  cases description with
  | range kind low high =>
    obtain ⟨_⟩ := meets
    exact ⟨trivial⟩
  | object value => exact meets.elim
  | atom value | select limit options | array items | union variants => trivial

/-- The ranges in a result of truthful descriptions come from parts of both sides. -/
theorem combine_ranges (truthfulLeft : left.Truthful) (truthfulRight : right.Truthful)
    (made : combine function left right = .ok result) :
    result.Ranges (Stems function left right) :=
  ranges_combine truthfulLeft.numeric truthfulRight.numeric made

/--
What the ranges in a calculated description are: their bounds come from bounds, their kind from kinds.

The kind is the same for every function and every number: a range of integers is what comes from
ranges of integers and numbers, also where it is divided or where a number is a fraction. Only
without both of these, and without a remainder over zero, is it sure to lie between whole numbers.
-/
theorem combine_kinds (truthfulLeft : left.Truthful) (truthfulRight : right.Truthful)
    (made : combine function left right = .ok result) :
    result.Ranges (Stems function left right) ∧
    (function ≠ .divide →
      (∀ n, left.Part none n n → n.Integral) → (∀ n, right.Part none n n → n.Integral) →
      (function = .remainder → ∀ kind low high, right.Part kind low high →
        low.isZero = false ∧ high.isZero = false) →
      ∀ low high, Occurs (.range .integer low high) result →
        ∃ least most, low = .num least ∧ high = .num most ∧
          (least.Integral ∨ least.isInfinite = true) ∧
          (most.Integral ∨ most.isInfinite = true)) := by
  have ranges := combine_ranges truthfulLeft truthfulRight made
  refine ⟨ranges, fun noQuotient wholeLeft wholeRight some low high occurs => ?_⟩
  obtain ⟨least, most, rfl, rfl, stems⟩ := (ranges .integer low high).mp occurs
  obtain ⟨first, second, joined, lower, upper⟩ := stems
  -- Neither part is a range of fractions, so all four bounds are whole.
  obtain ⟨notFloat, notFloat'⟩ := notFloat_of_joinedKind joined
  obtain ⟨wholeLow, wholeHigh⟩ := truthfulLeft.integral wholeLeft first notFloat
  obtain ⟨wholeLow', wholeHigh'⟩ := truthfulRight.integral wholeRight second notFloat'
  exact ⟨least, most, rfl, rfl,
    wholeLow.apply noQuotient (fun rest => (some rest _ _ _ second).1) wholeLow' lower,
    wholeHigh.apply noQuotient (fun rest => (some rest _ _ _ second).2) wholeHigh' upper⟩

/-- Integers up to three are doubled to a range with whole bounds, and halved to one without. -/
theorem combine_kinds_halved :
    let range := Description.range .integer (.int 0) (.int 3)
    let two := Description.atom (.int 2)
    let half := Value.float (.ofQuotient 3 2)
    let doubled := Description.range .integer (.int 0) (.int 6)
    let halved := Description.range .integer (.float (.ofQuotient 0 2)) half
    combine .multiply range two = .ok doubled ∧ combine .divide range two = .ok halved ∧
      (∀ low high, Occurs (.range .integer low high) doubled →
        ∃ least most, low = .num least ∧ high = .num most ∧
          (least.Integral ∨ least.isInfinite = true) ∧
          (most.Integral ∨ most.isInfinite = true)) ∧
      Occurs (.range .integer (.float (.ofQuotient 0 2)) half) halved ∧
      (Binary64.ofQuotient 3 2).isIntegral = false := by
  intro range two half doubled halved
  have truthful : range.Truthful := .range ⟨fun _ => ⟨trivial, trivial⟩⟩
  have truthful' : two.Truthful := .atom ⟨.int 2, rfl⟩
  have bounds : range.Bounds (some .integer) (.int 0) (.int 3) := .range _ _ _
  have bounds' : two.Bounds none (.int 2) (.int 2) := .number _
  have multiplied : combine .multiply range two = .ok doubled := rfl
  -- Both bounds are divided, and the kind stays that of the range.
  have lower : Number.divide (.int 0) (.int 2) = .ok (.float (.ofQuotient 0 2)) := by
    rw [Number.divide_eq, if_neg (by decide)]
    exact if_neg (by decide +kernel)
  have upper : Number.divide (.int 3) (.int 2) = .ok (.float (.ofQuotient 3 2)) := by
    rw [Number.divide_eq, if_neg (by decide)]
    exact if_neg (by decide +kernel)
  have divided : combine .divide range two = .ok halved := by
    simp only [range, two, combine, combineSimple, Value.number?, Arithmetic.onValues_num,
      Arithmetic.apply, lower, upper, Functor.map, Except.map, bind, Except.bind, pure, Except.pure,
      halved, half]
  refine ⟨multiplied, divided, ?_, ?_, by decide +kernel⟩
  · -- The range has no part that is a number, and the only number is whole.
    refine (combine_kinds truthful truthful' multiplied).2 (by decide) (fun n part => ?_)
      (fun n part => ?_) (fun impossible => absurd impossible (by decide))
    · cases (bounds.part_iff.mp part).1
    · obtain ⟨-, rfl, -⟩ := bounds'.part_iff.mp part
      trivial
  · refine ((combine_kinds truthful truthful' divided).1 _ _ _).mpr ?_
    exact ⟨_, _, rfl, rfl, .bounds bounds, .bounds bounds', rfl, lower, upper⟩

end Calculated
end TrialScript.Description
