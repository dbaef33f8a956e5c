import TrialScript.Proofs.Description.Lasting

/-! Calculating with integers between bounds: the described result has the result of all integers. -/

namespace TrialScript

/--
A function that gives integers for integers and grows with both of them, on allowed ones.

What is above something allowed is allowed, and so is every result.
-/
structure Arithmetic.Rising (function : Arithmetic) (allowed : Int → Prop)
    (exactly : Int → Int → Int) : Prop where
  calculates : ∀ x y : Int, function.apply (.int x) (.int y) = .ok (.int (exactly x y))
  closed : ∀ {x y : Int}, allowed x → allowed y → allowed (exactly x y)
  upward : ∀ {x y : Int}, allowed x → x ≤ y → allowed y
  rises : ∀ {x x' y y' : Int}, allowed x → allowed y → x ≤ x' → y ≤ y' →
    exactly x y ≤ exactly x' y'

namespace Arithmetic

/-- Sums grow with both sides. -/
theorem Rising.add : Rising .add (fun _ => True) (· + ·) where
  calculates _ _ := rfl
  closed _ _ := trivial
  upward _ _ := trivial
  rises _ _ := Int.add_le_add

/-- The smaller of two integers grows with both of them. -/
theorem Rising.least : Rising .least (fun _ => True) min where
  calculates x y := by
    -- Numbers are chosen by a comparison, which for integers is the order itself.
    rw [apply, Number.least, Number.int_less_int]
    by_cases smaller : y < x
    · rw [if_pos (decide_eq_true smaller), Int.min_eq_right (Int.le_of_lt smaller)]
    · rw [if_neg (by simpa using smaller), Int.min_eq_left (Int.not_lt.mp smaller)]
  closed _ _ := trivial
  upward _ _ := trivial
  rises _ _ := by omega

/-- The larger of two integers grows with both of them. -/
theorem Rising.greatest : Rising .greatest (fun _ => True) max where
  calculates x y := by
    -- Numbers are chosen by a comparison, which for integers is the order itself.
    rw [apply, Number.greatest, Number.int_less_int]
    by_cases smaller : x < y
    · rw [if_pos (decide_eq_true smaller), Int.max_eq_right (Int.le_of_lt smaller)]
    · rw [if_neg (by simpa using smaller), Int.max_eq_left (Int.not_lt.mp smaller)]
  closed _ _ := trivial
  upward _ _ := trivial
  rises _ _ := by omega

/-- Products grow with both sides as long as neither is negative. -/
theorem Rising.multiply : Rising .multiply (0 ≤ ·) (· * ·) where
  calculates _ _ := rfl
  closed := Int.mul_nonneg
  upward := Int.le_trans
  rises nonneg nonneg' wider wider' :=
    Int.mul_le_mul wider wider' nonneg' (Int.le_trans nonneg wider)

end Arithmetic

namespace Description

/-- The bounds of an integer or of a range of integers: an integer is both. -/
inductive Spans : Description → Int → Int → Prop where
  | number (n : Int) : Spans (.atom (.int n)) n n
  | range (low high : Int) : Spans (.range .integer (.int low) (.int high)) low high

/-- Integers, ranges of integers, the unknown, and choices of one of these at any depth. -/
inductive Whole (allowed : Int → Prop) : Description → Prop where
  | unknown : Whole allowed .unknown
  | spans {description : Description} {low high : Int} (spans : Spans description low high)
      (ordered : low ≤ high) (lowAllowed : allowed low) (highAllowed : allowed high) :
      Whole allowed description
  | select {limit : Value} {options : List Description} (single : isSingle limit = true)
      (each : ∀ option ∈ options, Whole allowed option) : Whole allowed (.select limit options)

/-- An integer is described: by the unknown, by bounds around it, or by an option that describes it. -/
inductive Admits (n : Int) : Description → Prop where
  | unknown : Admits n .unknown
  | spans {description : Description} {low high : Int} (spans : Spans description low high)
      (above : low ≤ n) (below : n ≤ high) : Admits n description
  | option {limit : Value} {option : Description} {options : List Description}
      (member : option ∈ options) (admits : Admits n option) : Admits n (.select limit options)

/-- A description is or has a part: an option, an item, a variant, or a part of one of these. -/
inductive Occurs (part : Description) : Description → Prop where
  | self : Occurs part part
  | option {limit : Value} {option : Description} {options : List Description}
      (member : option ∈ options) (inside : Occurs part option) :
      Occurs part (.select limit options)
  | item {item : Description} {items : List Description} (member : item ∈ items)
      (inside : Occurs part item) : Occurs part (.array items)
  | variant {variant : Description} {variants : List Description} (member : variant ∈ variants)
      (inside : Occurs part variant) : Occurs part (.union variants)

section Bounds

variable {description : Description} {allowed : Int → Prop} {low high n : Int}

/-- Something with bounds describes the integers between them. -/
theorem Spans.admits_iff (spans : description.Spans low high) :
    description.Admits n ↔ low ≤ n ∧ n ≤ high := by
  -- What has bounds has them once, and is neither unknown nor a choice.
  constructor
  · intro admits
    cases admits with
    | unknown => cases spans
    | spans other above below =>
      cases spans <;> cases other <;> exact ⟨above, below⟩
    | option => cases spans
  · intro within
    exact .spans spans within.1 within.2

/-- Something with bounds has no parts besides itself. -/
theorem Spans.eq_of_occurs {part : Description} (spans : description.Spans low high)
    (occurs : Occurs part description) : part = description := by
  cases spans <;> cases occurs <;> rfl

/-- Something with bounds has only one pair of them. -/
theorem Spans.unique {low' high' : Int} (spans : description.Spans low high)
    (other : description.Spans low' high') : low' = low ∧ high' = high := by
  cases spans <;> cases other <;> exact ⟨rfl, rfl⟩

/-- Something with bounds is known. -/
theorem Spans.known (spans : description.Spans low high) : ¬ Occurs .unknown description := by
  intro occurs
  cases spans.eq_of_occurs occurs
  cases spans

/-- A description of integers that no calculation can say anything about is unknown. -/
theorem Whole.unknown_of_not_isOperand (whole : description.Whole allowed)
    (apart : ¬ description.isOperand = true) : description = .unknown := by
  cases whole with
  | unknown => rfl
  | spans spans => cases spans <;> exact absurd rfl apart
  | select => exact absurd rfl apart

/-- Every range in a description of integers is one of integers, between integers in order. -/
theorem Whole.range_of_occurs (whole : description.Whole allowed) {kind : RangeKind}
    {least most : Value} (occurs : Occurs (.range kind least most) description) :
    kind = .integer ∧ ∃ low high : Int, least = .int low ∧ most = .int high ∧ low ≤ high := by
  -- The induction goes down to the range, past choices alone.
  induction whole with
  | unknown => cases occurs
  | spans spans ordered =>
    cases spans with
    | number => cases occurs
    | range low high =>
      cases occurs
      exact ⟨rfl, _, _, rfl, rfl, ordered⟩
  | select _ _ ih =>
    cases occurs with
    | option member inside => exact ih _ member inside

end Bounds

section Combining

variable {function : Arithmetic} {allowed : Int → Prop} {exactly : Int → Int → Int}
  {left right result : Description} {limit : Value} {options results : List Description}

/-- An integer is the result for some integers that two descriptions describe. -/
def Attained (exactly : Int → Int → Int) (left right : Description) (n : Int) : Prop :=
  ∃ a b : Int, left.Admits a ∧ right.Admits b ∧ exactly a b = n

/--
What a description must be to stand for the results of two others.

It describes the result for all integers that they describe, within bounds that are such results
themselves, and it leaves nothing unknown that was known on both sides.
-/
structure Image (allowed : Int → Prop) (exactly : Int → Int → Int)
    (left right result : Description) : Prop where
  whole : result.Whole allowed
  admits : ∀ {a b : Int}, left.Admits a → right.Admits b → result.Admits (exactly a b)
  attained : ∀ {part : Description} {low high : Int}, Occurs part result → part.Spans low high →
    Attained exactly left right low ∧ Attained exactly left right high
  known : Occurs .unknown result → Occurs .unknown left ∨ Occurs .unknown right

/-- What one of two lists has that are related one by one is related to something in the other. -/
theorem exists_of_mem_right {α β : Type} {good : α → β → Prop} {options : List α}
    {results : List β} {result : β} (each : List.Forall₂ good options results)
    (member : result ∈ results) : ∃ option ∈ options, good option result := by
  -- By induction on the two lists together, up to the result that was found.
  induction each with
  | nil => cases member
  | cons here _ ih =>
    rcases List.mem_cons.mp member with rfl | later
    · exact ⟨_, List.mem_cons_self, here⟩
    · obtain ⟨option, found, fine⟩ := ih later
      exact ⟨option, List.mem_cons_of_mem _ found, fine⟩

/-- An integer that one of the options describes has its result described by one of the results. -/
theorem admits_select {change : Int → Int} {n : Int}
    (each : List.Forall₂ (fun option result => option.Admits n → result.Admits (change n))
      options results) (admits : (select limit options).Admits n) :
    (select limit results).Admits (change n) := by
  -- The result stands at the same position as the option.
  cases admits with
  | spans spans => cases spans
  | option member admits =>
    obtain ⟨result, found, fine⟩ := exists_of_mem_right each.flip member
    exact .option found (fine admits)

/-- The results for the options on the right are options for the results. -/
theorem Image.select_right (single : isSingle limit = true)
    (each : List.Forall₂ (Image allowed exactly left) options results) :
    Image allowed exactly left (.select limit options) (.select limit results) where
  -- Results are made one by one, so each has the image of its option.
  whole := by
    refine .select single fun result member => ?_
    obtain ⟨option, -, image⟩ := exists_of_mem_right each member
    exact image.whole
  admits first second :=
    admits_select (each.imp fun _ _ image described => image.admits first described) second
  attained := by
    intro part low high occurs spans
    -- A part with bounds is a part of one of the results.
    cases occurs with
    | self => cases spans
    | option member inside =>
      obtain ⟨option, found, image⟩ := exists_of_mem_right each member
      -- What is attained with one option is attained with the choice of options.
      have wider : ∀ {n : Int}, Attained exactly left option n →
          Attained exactly left (.select limit options) n := by
        intro n attained
        obtain ⟨a, b, admits, admits', same⟩ := attained
        exact ⟨a, b, admits, .option found admits', same⟩
      obtain ⟨least, most⟩ := image.attained inside spans
      exact ⟨wider least, wider most⟩
  known := by
    intro occurs
    cases occurs with
    | option member inside =>
      obtain ⟨option, found, image⟩ := exists_of_mem_right each member
      exact (image.known inside).imp_right (.option found)

/-- With the sides exchanged, so is the function. -/
theorem Image.swap (image : Image allowed exactly left right result) :
    Image allowed (fun a b => exactly b a) right left result where
  whole := image.whole
  admits first second := image.admits second first
  attained := by
    -- A result of two integers is one of the same two integers, the other way round.
    have swapped : ∀ {n : Int}, Attained exactly left right n →
        Attained (fun a b => exactly b a) right left n := by
      intro n attained
      obtain ⟨a, b, admits, admits', same⟩ := attained
      exact ⟨b, a, admits', admits, same⟩
    intro part low high occurs spans
    obtain ⟨least, most⟩ := image.attained occurs spans
    exact ⟨swapped least, swapped most⟩
  known occurs := (image.known occurs).symm

/-- The results for the options on the left are options for the results. -/
theorem Image.select_left (single : isSingle limit = true)
    (each : List.Forall₂ (fun option result => Image allowed exactly option right result)
      options results) :
    Image allowed exactly (.select limit options) right (.select limit results) :=
  (Image.select_right single (each.imp fun _ _ image => image.swap)).swap

/-- Where one side is unknown, so may be the result. -/
theorem Image.unknown (missing : left = .unknown ∨ right = .unknown) :
    Image allowed exactly left right .unknown where
  whole := .unknown
  admits _ _ := .unknown
  attained := by
    -- What is unknown has no bounds and admits everything.
    intro part low high occurs spans
    cases occurs
    cases spans
  known := by
    intro _
    rcases missing with missing | missing
    · exact .inl (missing ▸ .self)
    · exact .inr (missing ▸ .self)

variable (rising : function.Rising allowed exactly)

include rising

/-- Bounds are calculated with bounds. -/
theorem combineSimple_spans {low high low' high' : Int} (first : left.Spans low high)
    (second : right.Spans low' high') : ∃ result, combineSimple function left right = .ok result ∧
      result.Spans (exactly low low') (exactly high high') := by
  have onValues : ∀ x y : Int,
      function.onValues (.int x) (.int y) = .ok (.int (exactly x y)) := by
    intro x y
    rw [function.onValues_num, rising.calculates]
    rfl
  -- Two integers make an integer, and a range on either side makes a range.
  cases first <;> cases second <;>
    simp only [combineSimple, Value.number?, onValues, mixedKind, bind, Except.bind, pure,
      Except.pure]
  · exact ⟨_, rfl, .number _⟩
  · exact ⟨_, rfl, .range _ _⟩
  · exact ⟨_, rfl, .range _ _⟩
  · exact ⟨_, rfl, .range _ _⟩

/-- The bounds that are calculated stand for the results of the integers between the bounds. -/
theorem image_spans {low high low' high' : Int} (first : left.Spans low high)
    (second : right.Spans low' high') (spans : result.Spans (exactly low low') (exactly high high'))
    (ordered : low ≤ high) (ordered' : low' ≤ high') (fine : allowed low) (fine' : allowed low') :
    Image allowed exactly left right result where
  whole := .spans spans (rising.rises fine fine' ordered ordered') (rising.closed fine fine')
    (rising.closed (rising.upward fine ordered) (rising.upward fine' ordered'))
  admits := by
    intro a b admits admits'
    obtain ⟨above, below⟩ := first.admits_iff.mp admits
    obtain ⟨above', below'⟩ := second.admits_iff.mp admits'
    exact .spans spans (rising.rises fine fine' above above')
      (rising.rises (rising.upward fine above) (rising.upward fine' above') below below')
  attained := by
    intro part least most occurs other
    -- The only part with bounds is the whole, and each bound comes from one bound on either side.
    cases spans.eq_of_occurs occurs
    obtain ⟨rfl, rfl⟩ := spans.unique other
    have within := first.admits_iff.mpr ⟨Int.le_refl low, ordered⟩
    have within' := second.admits_iff.mpr ⟨Int.le_refl low', ordered'⟩
    have reaches := first.admits_iff.mpr ⟨ordered, Int.le_refl high⟩
    have reaches' := second.admits_iff.mpr ⟨ordered', Int.le_refl high'⟩
    exact ⟨⟨low, low', within, within', rfl⟩, ⟨high, high', reaches, reaches', rfl⟩⟩
  known occurs := absurd occurs spans.known

/-- With bounds on the left, the result for a description of integers stands for their results. -/
theorem combineSimple_image {low high : Int} (first : left.Spans low high) (ordered : low ≤ high)
    (fine : allowed low) (whole : right.Whole allowed) :
    ∃ result, combineSimple function left right = .ok result ∧
      Image allowed exactly left right result := by
  -- The induction is on the right side, whose options are combined one by one.
  induction whole with
  | unknown => exact ⟨.unknown, by cases first <;> rfl, .unknown (.inr rfl)⟩
  | spans second ordered' fine' _ =>
    obtain ⟨result, made, spans⟩ := combineSimple_spans rising first second
    exact ⟨result, made, image_spans rising first second spans ordered ordered' fine fine'⟩
  | @select limit options single _ ih =>
    obtain ⟨results, made, each⟩ := mapM_of_each ih
    refine ⟨.select limit results, ?_, .select_right single each⟩
    rw [combineSimple, combineOptions_eq_mapM, made]
    rfl

/-- The result for two descriptions of integers stands for the results of what they describe. -/
theorem combine_image (wholeLeft : left.Whole allowed) (wholeRight : right.Whole allowed) :
    ∃ result, combine function left right = .ok result ∧
      Image allowed exactly left right result := by
  -- The induction is on the left side, whose options are combined one by one.
  induction wholeLeft with
  | unknown => exact ⟨.unknown, rfl, .unknown (.inl rfl)⟩
  | @spans left low high first ordered fine _ =>
    have simple : combine function left right = combineSimple function left right := by
      cases first <;> rfl
    rw [simple]
    exact combineSimple_image rising first ordered fine wholeRight
  | @select limit options single _ ih =>
    rw [combine]
    split
    · obtain ⟨results, made, each⟩ := mapM_of_each ih
      refine ⟨.select limit results, ?_, .select_left single each⟩
      rw [combineEach_eq_mapM, made]
      rfl
    · next apart =>
      exact ⟨.unknown, rfl, .unknown (.inr (wholeRight.unknown_of_not_isOperand apart))⟩

/-- Integers are folded to an integer. -/
theorem foldlM_int (first : Int) (rest : List Int) :
    (rest.map Number.int).foldlM function.apply (.int first) =
      .ok (.int (rest.foldl exactly first)) := by
  -- The induction is on the further integers, from any first one.
  induction rest generalizing first with
  | nil => rfl
  | cons n rest ih =>
    rw [List.map_cons, List.foldlM_cons, rising.calculates]
    exact ih (exactly first n)

/-- Combining further descriptions one after the other stands for the results of further integers. -/
theorem foldlM_image {first : Description} {rest : List Description}
    (whole : first.Whole allowed) (each : ∀ description ∈ rest, description.Whole allowed) :
    ∃ result, rest.foldlM (combine function) first = .ok result ∧
      ∀ (a : Int) (others : List Int), first.Admits a →
        List.Forall₂ (fun description n => description.Admits n) rest others →
        result.Admits (others.foldl exactly a) := by
  -- The induction is on the further descriptions, each of which meets the result so far.
  induction rest generalizing first with
  | nil =>
    refine ⟨first, rfl, fun a others admits none => ?_⟩
    cases none
    exact admits
  | cons description rest ih =>
    obtain ⟨here, later⟩ := List.forall_mem_cons.mp each
    obtain ⟨between, made, image⟩ := combine_image rising whole here
    obtain ⟨result, folded, onward⟩ := ih image.whole later
    refine ⟨result, ?_, fun a others admits described => ?_⟩
    · rw [List.foldlM_cons, made]
      exact folded
    · cases described with
      | @cons _ b _ others admitsNext describedRest =>
        exact onward (exactly a b) others (image.admits admits admitsNext) describedRest

end Combining

/-- A fold of some descriptions of integers describes the fold of all integers that they describe. -/
theorem describeFold_admits {op : FoldOp} {allowed : Int → Prop} {exactly : Int → Int → Int}
    (rising : op.function.Rising allowed exactly) {descriptions : List Description}
    (some : descriptions ≠ []) (each : ∀ description ∈ descriptions, description.Whole allowed) :
    ∃ result, describeFold op descriptions = .ok result ∧ ∀ numbers : List Int,
      List.Forall₂ (fun description n => description.Admits n) descriptions numbers →
      ∃ n : Int, op.apply (numbers.map Number.int) = .ok (.int n) ∧ result.Admits n := by
  -- Sums and products of integers might as well start with the first of them.
  obtain ⟨first, rest, rfl⟩ := List.exists_cons_of_ne_nil some
  obtain ⟨whole, others⟩ := List.forall_mem_cons.mp each
  obtain ⟨result, folded, admits⟩ := foldlM_image rising whole others
  refine ⟨result, folded, fun numbers described => ?_⟩
  cases described with
  | @cons _ a _ others here later =>
    refine ⟨others.foldl exactly a, ?_, admits a others here later⟩
    rw [List.map_cons, op.apply_cons (.int a), foldlM_int rising]

/-- An integer is what a function makes of some integers that two descriptions describe. -/
def Results (function : Arithmetic) (left right : Description) (n : Int) : Prop :=
  ∃ a b : Int, left.Admits a ∧ right.Admits b ∧ function.apply (.int a) (.int b) = .ok (.int n)

/--
What a description says about the results of a function for two descriptions of integers.

It describes the result for all integers that they describe. Every range in it is one of integers in
order, with a result at both ends, and nothing is unknown in it that was known on both sides.
-/
structure Reflects (function : Arithmetic) (left right result : Description) : Prop where
  admits : ∀ a b : Int, left.Admits a → right.Admits b →
    ∃ c : Int, function.apply (.int a) (.int b) = .ok (.int c) ∧ result.Admits c
  ranges : ∀ (kind : RangeKind) (low high : Value), Occurs (.range kind low high) result →
    kind = .integer ∧ ∃ least most : Int, low = .int least ∧ high = .int most ∧ least ≤ most ∧
      Results function left right least ∧ Results function left right most
  known : Occurs .unknown result → Occurs .unknown left ∨ Occurs .unknown right

/-- A description that stands for the results says what it should about them. -/
theorem Image.reflects {function : Arithmetic} {allowed : Int → Prop} {exactly : Int → Int → Int}
    {left right result : Description} (image : Image allowed exactly left right result)
    (rising : function.Rising allowed exactly) : Reflects function left right result where
  admits a b admits admits' :=
    ⟨exactly a b, rising.calculates a b, image.admits admits admits'⟩
  ranges := by
    -- The image says which integers there are, and that the function rises that it calculates them.
    intro kind low high occurs
    obtain ⟨rfl, least, most, rfl, rfl, ordered⟩ := image.whole.range_of_occurs occurs
    have results : ∀ {n : Int}, Attained exactly left right n → Results function left right n := by
      intro n attained
      obtain ⟨a, b, admits, admits', same⟩ := attained
      exact ⟨a, b, admits, admits', by rw [rising.calculates, same]⟩
    obtain ⟨atLeast, atMost⟩ := image.attained occurs (.range least most)
    exact ⟨rfl, least, most, rfl, rfl, ordered, results atLeast, results atMost⟩
  known := image.known

/--
A calculation with descriptions of integers reflects its results for all integers they describe.

Sums, smaller and larger ones are described for all integers, and products for those that are not
negative, where bounds come from bounds.
-/
theorem combine_reflects {function : Arithmetic} {left right : Description}
    (fits : (function ∈ [Arithmetic.add, .least, .greatest] ∧
        left.Whole (fun _ => True) ∧ right.Whole fun _ => True) ∨
      (function = .multiply ∧ left.Whole (0 ≤ ·) ∧ right.Whole (0 ≤ ·))) :
    ∃ result, combine function left right = .ok result ∧
      Reflects function left right result := by
  -- All that is used of the function is that it is one that rises.
  have general : ∀ {allowed : Int → Prop} {exactly : Int → Int → Int},
      function.Rising allowed exactly → left.Whole allowed → right.Whole allowed →
      ∃ result, combine function left right = .ok result ∧
        Reflects function left right result := by
    intro allowed exactly rising wholeLeft wholeRight
    obtain ⟨result, made, image⟩ := combine_image rising wholeLeft wholeRight
    exact ⟨result, made, image.reflects rising⟩
  rcases fits with ⟨member, wholeLeft, wholeRight⟩ | ⟨rfl, wholeLeft, wholeRight⟩
  · simp only [List.mem_cons, List.not_mem_nil, or_false] at member
    rcases member with rfl | rfl | rfl
    · exact general .add wholeLeft wholeRight
    · exact general .least wholeLeft wholeRight
    · exact general .greatest wholeLeft wholeRight
  · exact general .multiply wholeLeft wholeRight

/-- Options within options are multiplied with the bounds of a range. -/
theorem combine_reflects_nested :
    let left := oneOf [.atom (.int 2), oneOf [.range .integer (.int 0) (.int 3), .unknown]]
    let right := Description.range .integer (.int 1) (.int 4)
    let result := oneOf [.range .integer (.int 2) (.int 8),
      oneOf [.range .integer (.int 0) (.int 12), .unknown]]
    combine .multiply left right = .ok result ∧ left.Admits 3 ∧ right.Admits 4 ∧
      result.Admits 12 := by
  -- Both sides are whole and not below zero, which is where products rise.
  intro left right result
  have wholeInner : (oneOf [.range .integer (.int 0) (.int 3), .unknown]).Whole (0 ≤ ·) := by
    refine .select isSingle_one (List.forall_mem_cons.mpr ⟨?_, List.forall_mem_singleton.mpr .unknown⟩)
    exact .spans (.range 0 3) (by decide) (by decide) (by decide)
  have wholeLeft : left.Whole (0 ≤ ·) := by
    refine .select isSingle_one (List.forall_mem_cons.mpr ⟨?_, List.forall_mem_singleton.mpr wholeInner⟩)
    exact .spans (.number 2) (by decide) (by decide) (by decide)
  have wholeRight : right.Whole (0 ≤ ·) := .spans (.range 1 4) (by decide) (by decide) (by decide)
  have admitsLeft : left.Admits 3 :=
    .option (List.mem_cons_of_mem _ List.mem_cons_self)
      (.option List.mem_cons_self (.spans (.range 0 3) (by decide) (by decide)))
  have admitsRight : right.Admits 4 := .spans (.range 1 4) (by decide) (by decide)
  have first : combine .multiply left right = .ok result := by rfl
  obtain ⟨made, combined, reflects⟩ := combine_reflects (.inr ⟨rfl, wholeLeft, wholeRight⟩)
  obtain ⟨product, applied, described⟩ := reflects.admits 3 4 admitsLeft admitsRight
  cases first.symm.trans combined
  cases applied
  exact ⟨first, admitsLeft, admitsRight, described⟩

end Description
end TrialScript
