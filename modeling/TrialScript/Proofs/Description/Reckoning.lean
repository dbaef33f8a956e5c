import TrialScript.Proofs.Description.Describes
import TrialScript.Proofs.Description.Lasting
import TrialScript.Proofs.Faults
import TrialScript.Proofs.Numeric.Defined

/-! The steps of arithmetic that calculating with descriptions makes, and that decide whether it stops. -/

namespace TrialScript

/-- A step of arithmetic: a function of two numbers, or a conversion to binary64. -/
inductive Reckoning where
  | apply (function : Arithmetic) (left right : Number)
  | convert (number : Number)

namespace Reckoning

/-- The step on its own, without what becomes of its result. -/
def check : Reckoning → Except Fault Unit
  | .apply function left right => discard (function.apply left right)
  | .convert number => discard number.toFloat

/-- A step that has a result. -/
def Defined : Reckoning → Prop
  | .apply function left right => function.Defined left right
  | .convert number => number.Fits

/-- A step succeeds exactly where it is defined. -/
theorem succeeds_check {reckoning : Reckoning} : Succeeds reckoning.check ↔ reckoning.Defined := by
  cases reckoning with
  | apply function left right => exact Succeeds.map_iff.trans Arithmetic.succeeds_apply
  | convert number => exact Succeeds.map_iff.trans Number.succeeds_toFloat

/-- A step fails with the faults of arithmetic only. -/
theorem failsOnly_check (reckoning : Reckoning) : FailsOnly numericFaults reckoning.check := by
  cases reckoning with
  | apply function left right => exact .map _ .arithmetic
  | convert number => exact .map _ .toFloat

end Reckoning

variable {α β γ : Type}

/-- A check that makes some steps: it succeeds only if they do, and stops only where one of them does. -/
structure Makes (steps : Reckoning → Prop) (checked : Except Fault α) : Prop where
  goes : Succeeds checked → ∀ step, steps step → Succeeds step.check
  stops : ∀ fault, checked = .error fault → ∃ step, steps step ∧ step.check = .error fault

namespace Makes

variable {steps others : Reckoning → Prop} {checked : Except Fault α}

/-- A check succeeds if all of its steps are defined. -/
theorem succeeds_iff (makes : Makes steps checked) :
    Succeeds checked ↔ ∀ step, steps step → step.Defined := by
  -- A check that stops does so with the fault of one of its steps, which is then not defined.
  simp only [← Reckoning.succeeds_check]
  refine ⟨makes.goes, fun each => ?_⟩
  cases result : checked with
  | ok found => exact .ok found
  | error fault =>
    obtain ⟨step, member, stopped⟩ := makes.stops fault result
    exact (Succeeds.not_error fault (stopped ▸ each step member)).elim

/-- A result that is there makes no step. -/
theorem ok (found : α) : Makes (fun _ => False) (.ok found) where
  goes := fun _ _ impossible => impossible.elim
  stops := by rintro fault ⟨⟩

/-- What is made of the result of a step makes that step. -/
theorem single {step : Reckoning} {result : Except Fault γ} (asked : step.check = discard result)
    (form : γ → α) : Makes (fun other => other = step) (form <$> result) where
  goes := by
    -- The step asks for the result alone, so it stops exactly where the result does.
    rintro found _ rfl
    rw [asked]
    exact Succeeds.map_iff.mpr (Succeeds.map_iff.mp found)
  stops := by
    intro fault stopped
    refine ⟨step, rfl, ?_⟩
    cases result with
    | ok found => cases stopped
    | error failure =>
      cases stopped
      exact asked

/-- The same steps may be listed in another way. -/
theorem congr (makes : Makes steps checked) (same : ∀ step, steps step ↔ others step) :
    Makes others checked := by
  rwa [← funext fun step => propext (same step)]

/-- A result that is there makes whatever steps there are, if there are none. -/
theorem still (found : α) (none : ∀ step, ¬ steps step) : Makes steps (.ok found) :=
  (ok found).congr fun step => ⟨False.elim, none step⟩

/-- Two checks in a row make steps that are each of the first or, wherever there is one, of the second. -/
theorem bind_of {rest : α → Except Fault β} {later : α → Reckoning → Prop}
    (first : Makes steps checked)
    (next : ∀ found, checked = .ok found → Makes (later found) (rest found))
    (ofFirst : ∀ step, steps step → others step)
    (ofRest : ∀ found, checked = .ok found → ∀ step, later found step → others step)
    (either : ∀ step, others step → steps step ∨ ∀ found, checked = .ok found → later found step) :
    Makes others (checked >>= rest) where
  goes := by
    -- Both checks have passed, and each makes its own steps.
    intro found step member
    obtain ⟨between, passed, onward⟩ := Succeeds.bind_iff.mp found
    rcases either step member with inFirst | inRest
    · exact first.goes ⟨between, passed⟩ step inFirst
    · exact (next between passed).goes onward step (inRest between passed)
  stops := by
    -- The fault is one of the first check, or of the second with what the first found.
    intro fault stopped
    cases result : checked with
    | ok between =>
      rw [result] at stopped
      obtain ⟨step, member, failed⟩ := (next between result).stops fault stopped
      exact ⟨step, ofRest between result step member, failed⟩
    | error failure =>
      rw [result] at stopped
      cases stopped
      obtain ⟨step, member, failed⟩ := first.stops fault result
      exact ⟨step, ofFirst step member, failed⟩

/-- Two checks in a row make the steps of both. -/
theorem bind {rest : α → Except Fault β} (first : Makes steps checked)
    (next : ∀ found, checked = .ok found → Makes others (rest found)) :
    Makes (fun step => steps step ∨ others step) (checked >>= rest) :=
  first.bind_of next (fun _ => .inl) (fun _ _ _ => .inr) fun _ => .imp_right fun member _ _ => member

/-- The steps of a second check may depend on what the first one found. -/
theorem chain {rest : α → Except Fault β} {later : α → Reckoning → Prop}
    (first : Makes steps checked)
    (next : ∀ found, checked = .ok found → Makes (later found) (rest found)) :
    Makes (fun step => steps step ∨ ∃ found, checked = .ok found ∧ later found step)
      (checked >>= rest) := by
  -- The steps of the second check are those after what the first one found, and it finds one thing.
  refine first.bind_of next (fun _ => .inl) (fun found passed _ member => .inr ⟨found, passed, member⟩) ?_
  refine fun _ => .imp_right ?_
  rintro ⟨found, passed, member⟩ _ same
  cases passed.symm.trans same
  exact member

/-- What needs no step after a check makes the steps of the check. -/
theorem map (makes : Makes steps checked) {rest : α → Except Fault β}
    (next : ∀ found, Makes (fun _ => False) (rest found)) : Makes steps (checked >>= rest) :=
  (makes.bind fun found _ => next found).congr fun _ => or_iff_left id

section Runs

variable {σ : Type} {first : Stateful σ α} {rest : α → Stateful σ β} {state : σ}

/-- A sequence makes the steps of its parts, of which the second starts where the first ended. -/
theorem run_bind {later : α → σ → Reckoning → Prop} (here : Makes steps (first.run state).1)
    (next : ∀ found after, first.run state = (.ok found, after) →
      Makes (later found after) ((rest found).run after).1) :
    Makes (fun step => steps step ∨
      ∃ found after, first.run state = (.ok found, after) ∧ later found after step)
      ((first >>= rest).run state).1 := by
  -- The second part starts where the first one ended, which the run gives along with what it found.
  rw [Stateful.run_bind_fst]
  refine (here.chain fun found gave => next found _ (Prod.ext gave rfl)).congr fun step => ?_
  refine or_congr_right ⟨fun ⟨found, gave, member⟩ => ⟨found, _, Prod.ext gave rfl, member⟩, ?_⟩
  rintro ⟨found, after, ran, member⟩
  exact ⟨found, congrArg Prod.fst ran, by rwa [ran]⟩

/-- What needs no step after a computation makes the steps of the computation. -/
theorem run_map (here : Makes steps (first.run state).1)
    (next : ∀ found after, first.run state = (.ok found, after) →
      Makes (fun _ => False) ((rest found).run after).1) :
    Makes steps ((first >>= rest).run state).1 :=
  (here.run_bind next).congr fun _ => or_iff_left fun ⟨_, _, _, impossible⟩ => impossible

end Runs

/-- Checks of all items make the steps of every item. -/
theorem mapM {items : List α} {check : α → Except Fault β} {steps : α → Reckoning → Prop}
    (each : ∀ item ∈ items, Makes (steps item) (check item)) :
    Makes (fun step => ∃ item ∈ items, steps item step) (items.mapM check) := by
  -- The induction is on the items, each of which adds its own steps.
  induction items with
  | nil => exact (ok []).congr fun step => by simp
  | cons item rest ih =>
    obtain ⟨here, later⟩ := List.forall_mem_cons.mp each
    rw [List.mapM_cons]
    refine (here.bind fun first _ => (ih later).map fun results => ok _).congr fun step => ?_
    simp only [List.mem_cons, exists_eq_or_imp]

end Makes

namespace Description

/-- A range lies between numbers, and an object is a mapping. -/
abbrev Numeric.Here : Description → Prop
  | .range _ low high => Numbers (fun _ _ => True) low high
  | .object value => ∃ fields, value = .dict fields
  | _ => True

/-- A description whose ranges lie between numbers, and whose objects are mappings. -/
abbrev Numeric : Description → Prop :=
  Throughout Numeric.Here

namespace Numeric

/-- A range between numbers is numeric. -/
theorem range (kind : RangeKind) (low high : Number) :
    (Description.range kind (.num low) (.num high)).Numeric :=
  Throughout.range ⟨trivial⟩

/-- Being numeric goes to and comes from parts, and bounds that are numbers can be widened. -/
theorem hereditary : Hereditary Numeric := by
  refine Throughout.hereditary trivial (fun _ => trivial) (fun _ => trivial) ?_
  rintro kind _ _ _ _ ⟨_⟩ ⟨_⟩
  exact ⟨_, _, widen_num .., ⟨trivial⟩⟩

/-- The description of a known value is numeric. -/
theorem ofLiteral (value : Value) : (Description.ofLiteral value).Numeric :=
  Throughout.ofLiteral (fun _ _ => trivial) (fun _ => trivial) (fun fields => ⟨fields, rfl⟩) value

/-- Being numeric lasts through everything that is done with descriptions. -/
theorem lasting : Lasting (fun bound => ∃ number, bound = .num number) Numeric where
  number n := ⟨n, rfl⟩
  calculated := by
    -- Only a calculation makes new ends, and on two numbers it gives a number.
    rintro function _ _ ⟨x, rfl⟩ ⟨y, rfl⟩
    exact function.gives_onValues_num x y
  scalar value := .atom trivial
  range := by
    intro kind low high
    constructor
    -- A range is numeric exactly if both of its bounds are numbers.
    · intro numeric
      obtain ⟨_⟩ := numeric.meets
      exact ⟨⟨_, rfl⟩, ⟨_, rfl⟩⟩
    · rintro ⟨⟨x, rfl⟩, ⟨y, rfl⟩⟩
      exact range kind x y
  options := hereditary.options
  exchanged _ each := .select trivial each
  chosen each := .select trivial each
  array := ⟨Throughout.items, .array trivial⟩
  variants := hereditary.variants
  unionOf := hereditary.unionOf
  field _ _ := ofLiteral _

end Numeric

section Corners

/-- The lower and the upper end of something that a description describes: a number is both. -/
inductive Corner : Description → Number → Number → Prop where
  | number (n : Number) : Corner (.atom (.num n)) n n
  | range (kind : RangeKind) (low high : Number) : Corner (.range kind (.num low) (.num high)) low high
  | option {limit : Value} {option : Description} {options : List Description} {low high : Number}
      (member : option ∈ options) (corner : Corner option low high) :
      Corner (.select limit options) low high

/-- The steps of calculating with two descriptions: lower ends with lower ones, upper with upper. -/
inductive Combines (function : Arithmetic) (left right : Description) : Reckoning → Prop where
  | low {low high low' high' : Number} (first : left.Corner low high)
      (second : right.Corner low' high') : Combines function left right (.apply function low low')
  | high {low high low' high' : Number} (first : left.Corner low high)
      (second : right.Corner low' high') : Combines function left right (.apply function high high')

variable {function : Arithmetic} {left right : Description} {limit : Value}
  {options : List Description}

/-- Two numbers are calculated with in one step. -/
theorem makes_onValues (function : Arithmetic) (x y : Number) :
    Makes (fun step => step = .apply function x y) (function.onValues (.num x) (.num y)) := by
  rw [Arithmetic.onValues_num]
  exact .single rfl _

/-- The bounds of a range are calculated in two steps. -/
theorem makes_bounds (function : Arithmetic) (kind : RangeKind) (low high low' high' : Number) :
    Makes (fun step => step = .apply function low low' ∨ step = .apply function high high') (do
      let least ← function.onValues (.num low) (.num low')
      return Description.range kind least (← function.onValues (.num high) (.num high'))) :=
  (makes_onValues function low low').bind fun _ _ =>
    (makes_onValues function high high').map fun _ => .ok _

/-- The options of a choice on the right are calculated with one by one. -/
theorem combines_select_right {step : Reckoning} : Combines function left (.select limit options) step ↔
    ∃ option ∈ options, Combines function left option step := by
  -- A choice has no ends of its own, so its corners are those of one of its options.
  constructor
  · rintro (⟨first, ⟨⟩⟩ | ⟨first, ⟨⟩⟩)
    · next member corner => exact ⟨_, member, .low first corner⟩
    · next member corner => exact ⟨_, member, .high first corner⟩
  · rintro ⟨option, member, ⟨first, second⟩ | ⟨first, second⟩⟩
    · exact .low first (.option member second)
    · exact .high first (.option member second)

/-- The options of a choice on the left are calculated with one by one. -/
theorem combines_select_left {step : Reckoning} : Combines function (.select limit options) right step ↔
    ∃ option ∈ options, Combines function option right step := by
  -- A choice has no ends of its own, so its corners are those of one of its options.
  constructor
  · rintro (⟨⟨⟩, second⟩ | ⟨⟨⟩, second⟩)
    · next member corner => exact ⟨_, member, .low corner second⟩
    · next member corner => exact ⟨_, member, .high corner second⟩
  · rintro ⟨option, member, ⟨first, second⟩ | ⟨first, second⟩⟩
    · exact .low (.option member first) second
    · exact .high (.option member first) second

/-- Both ends of a number are that number. -/
theorem corner_num {n low high : Number} :
    (atom (.num n)).Corner low high ↔ low = n ∧ high = n := by
  constructor
  · rintro ⟨⟩
    exact ⟨rfl, rfl⟩
  · rintro ⟨rfl, rfl⟩
    exact .number _

/-- The corners of a range of numbers are its ends. -/
theorem corner_range {kind : RangeKind} {least most low high : Number} :
    (range kind (.num least) (.num most)).Corner low high ↔ low = least ∧ high = most := by
  constructor
  · rintro ⟨⟩
    exact ⟨rfl, rfl⟩
  · rintro ⟨rfl, rfl⟩
    exact .range _ _ _

/-- Where the ends of both sides are known, so are the steps. -/
theorem combines_iff {step : Reckoning} {low high low' high' : Number}
    (first : ∀ {least most}, left.Corner least most ↔ least = low ∧ most = high)
    (second : ∀ {least most}, right.Corner least most ↔ least = low' ∧ most = high') :
    (step = .apply function low low' ∨ step = .apply function high high') ↔
      Combines function left right step := by
  -- A calculation goes from the lower ends or from the upper ends, never across.
  constructor
  · rintro (rfl | rfl)
    · exact .low (first.mpr ⟨rfl, rfl⟩) (second.mpr ⟨rfl, rfl⟩)
    · exact .high (first.mpr ⟨rfl, rfl⟩) (second.mpr ⟨rfl, rfl⟩)
  · rintro (⟨corner, corner'⟩ | ⟨corner, corner'⟩)
    · obtain ⟨rfl, -⟩ := first.mp corner
      obtain ⟨rfl, -⟩ := second.mp corner'
      exact .inl rfl
    · obtain ⟨-, rfl⟩ := first.mp corner
      obtain ⟨-, rfl⟩ := second.mp corner'
      exact .inr rfl

/-- Without an end on one side no step is made. -/
theorem makes_nothing (found : Description)
    (none : ∀ low high low' high', left.Corner low high → ¬ right.Corner low' high') :
    Makes (Combines function left right) (.ok found) := by
  refine .still found ?_
  rintro _ (⟨first, second⟩ | ⟨first, second⟩) <;> exact none _ _ _ _ first second

/-- Calculating with an exact number or a range on the left makes the steps of its ends. -/
theorem makes_combineSimple (simple : ∀ limit options, left ≠ .select limit options)
    (operand : left.isOperand = true) (numericLeft : left.Numeric) (numericRight : right.Numeric) :
    Makes (Combines function left right) (combineSimple function left right) := by
  -- The induction is on the right side, whose options are combined one by one.
  induction right using induction_parts with
  | atom value =>
    -- What is no number has no corner, and its result is unknown without a step.
    cases known : value.number? with
    | none =>
      have unknown : combineSimple function left (.atom value) = .ok .unknown := by
        simp only [combineSimple, known]
      rw [unknown]
      refine makes_nothing _ ?_
      rintro _ _ _ _ _ ⟨⟩
      cases known
    | some n =>
      cases Value.number?_eq_some.mp known
      -- A number acts on both ends of a range, or once on another number.
      cases numericLeft with
      | atom =>
        obtain ⟨x, rfl⟩ := eq_num_of_isOperand operand
        refine ((makes_onValues function x n).map fun _ => .ok _).congr fun step => ?_
        rw [← combines_iff corner_num corner_num, or_self]
      | @range kind _ _ bounds =>
        obtain ⟨_⟩ := bounds
        exact (makes_bounds function kind _ _ n n).congr fun step =>
          combines_iff corner_range corner_num
      | select => exact (simple _ _ rfl).elim
      | array | object | union => exact makes_nothing _ (by rintro _ _ _ _ ⟨⟩)
  -- The ends of the range are calculated with one by one, against a number or other ends.
  | range kind low high =>
    obtain ⟨_⟩ := numericRight.meets
    cases numericLeft with
    | atom =>
      obtain ⟨x, rfl⟩ := eq_num_of_isOperand operand
      exact (makes_bounds function kind x x _ _).congr fun step =>
        combines_iff corner_num corner_range
    | @range kind' _ _ bounds =>
      obtain ⟨_⟩ := bounds
      exact (makes_bounds function (mixedKind kind' kind) _ _ _ _).congr fun step =>
        combines_iff corner_range corner_range
    | select => exact (simple _ _ rfl).elim
    | array | object | union => exact makes_nothing _ (by rintro _ _ _ _ ⟨⟩)
  -- The options are combined in turn, and the steps are those of all of them.
  | select limit options ih =>
    have each := Numeric.lasting.options numericRight
    rw [combineSimple, combineOptions_eq_mapM]
    refine ((Makes.mapM fun option member => ih option member (each option member)).map
      fun _ => .ok _).congr fun step => ?_
    exact combines_select_right.symm
  | array | object | union => exact makes_nothing _ (by rintro _ _ _ _ _ ⟨⟩)

/-- Calculating with two descriptions makes the steps of their ends. -/
theorem makes_combine (numericLeft : left.Numeric) (numericRight : right.Numeric) :
    Makes (Combines function left right) (combine function left right) := by
  -- The induction is on the left side, whose options are combined one by one.
  induction left using induction_parts with
  | atom value =>
    rw [combine]
    split
    · next operand => exact makes_combineSimple (by simp) operand numericLeft numericRight
    · next apart =>
      refine makes_nothing _ ?_
      rintro _ _ _ _ ⟨⟩
      exact (apart rfl).elim
  | range kind low high =>
    rw [combine]
    exact makes_combineSimple (by simp) rfl numericLeft numericRight
  | select limit options ih =>
    have each := Numeric.lasting.options numericLeft
    rw [combine]
    split
    · rw [combineEach_eq_mapM]
      refine ((Makes.mapM fun option member => ih option member (each option member)).map
        fun _ => .ok _).congr fun step => ?_
      exact combines_select_left.symm
    · next apart =>
      -- Only an exact value that is no number is no operand, and it has no ends.
      refine makes_nothing _ ?_
      rintro _ _ _ _ _ (⟨n⟩ | _ | _) <;> exact apart rfl
  | array | object | union => exact makes_nothing _ (by rintro _ _ _ _ ⟨⟩)

/-- A description that says nothing, or nothing about any option of a choice. -/
inductive Blank : Description → Prop where
  | unknown : Blank .unknown
  | select (limit : Value) {options : List Description} (each : ∀ option ∈ options, Blank option) :
      Blank (.select limit options)

/-- An exact number or a range on the left combines to nothing known where no step is made. -/
theorem blank_combineSimple (simple : ∀ limit options, left ≠ .select limit options)
    (operand : left.isOperand = true) (numericLeft : left.Numeric) (numericRight : right.Numeric)
    (none : ∀ step, ¬ left.Combines function right step) :
    Gives Blank (combineSimple function left right) := by
  -- The induction is on the right side; where both sides have ends there would be a step.
  have apart {low high low' high' : Number} (first : left.Corner low high) :
      ¬ right.Corner low' high' := fun second => none _ (.low first second)
  induction right using induction_parts with
  | atom value =>
    unfold combineSimple
    split
    -- Two operands with ends would make the step that there is not.
    · next known =>
      obtain ⟨x, rfl⟩ := eq_num_of_isOperand operand
      cases Value.number?_eq_some.mp known
      exact (apart (.number x) (.number _)).elim
    · next known =>
      obtain ⟨_⟩ := numericLeft.meets
      cases Value.number?_eq_some.mp known
      exact (apart (.range ..) (.number _)).elim
    · exact .ok .unknown
  | range kind low high =>
    obtain ⟨_⟩ := numericRight.meets
    unfold combineSimple
    split
    · obtain ⟨x, rfl⟩ := eq_num_of_isOperand operand
      exact (apart (.number x) (.range ..)).elim
    · obtain ⟨_⟩ := numericLeft.meets
      exact (apart (.range ..) (.range ..)).elim
    · exact .ok .unknown
  -- Each option is combined without a step as well.
  | select limit options ih =>
    have each := Numeric.lasting.options numericRight
    rw [combineSimple, combineOptions_eq_mapM]
    refine .bind (.mapM fun option member => ih option member (each option member) ?_ ?_)
      fun others blank => .ok (.select limit blank)
    · exact fun step combines => none step (combines_select_right.mpr ⟨option, member, combines⟩)
    · exact fun first second => apart first (.option member second)
  | array | object | union => exact .ok .unknown

/-- Where calculating makes no step, it tells nothing and does not stop. -/
theorem blank_combine (numericLeft : left.Numeric) (numericRight : right.Numeric)
    (none : ∀ step, ¬ left.Combines function right step) :
    ∃ found, combine function left right = .ok found ∧ found.Blank := by
  -- Without steps there is none to be undefined, so the result is given.
  obtain ⟨found, gave⟩ := (makes_combine numericLeft numericRight).succeeds_iff.mpr
    fun step combines => (none step combines).elim
  refine ⟨found, gave, ?_⟩
  -- The induction is on the left side, whose options are combined one by one.
  induction left using induction_parts generalizing found with
  | atom value =>
    rw [combine] at gave
    split at gave
    · next operand =>
      exact blank_combineSimple (by simp) operand numericLeft numericRight none found gave
    · cases gave
      exact .unknown
  | range kind low high =>
    rw [combine] at gave
    exact blank_combineSimple (by simp) rfl numericLeft numericRight none found gave
  -- A step of one option would be a step of the choice.
  | select limit options ih =>
    have each := Numeric.lasting.options numericLeft
    rw [combine] at gave
    split at gave
    · rw [combineEach_eq_mapM] at gave
      obtain ⟨others, combined, gave⟩ := check_bind_ok gave
      cases gave
      refine .select limit (Gives.mapM (fun option member => ?_) others combined)
      exact fun found made => ih option member (each option member)
        (fun step combines => none step (combines_select_left.mpr ⟨option, member, combines⟩))
        found made
    · cases gave
      exact .unknown
  | array | object | union =>
    cases gave
    exact .unknown

end Corners

section Rounding

/-- The numbers that rounding a description converts. -/
inductive Rounded : Description → Number → Prop where
  | number (n : Number) : Rounded (.atom (.num n)) n
  | low (low : Number) (high : Value) : Rounded (.range .float (.num low) high) low
  | high (low : Value) (high : Number) : Rounded (.range .float low (.num high)) high
  | option {limit : Value} {option : Description} {options : List Description} {n : Number}
      (member : option ∈ options) (rounded : Rounded option n) : Rounded (.select limit options) n
  | variant {variant : Description} {variants : List Description} {n : Number}
      (member : variant ∈ variants) (rounded : Rounded variant n) : Rounded (.union variants) n

/-- The steps of rounding a description. -/
def Rounds (description : Description) (step : Reckoning) : Prop :=
  ∃ n, description.Rounded n ∧ step = .convert n

/-- A number is converted before it is rounded. -/
theorem makes_roundHalfAway (n : Number) :
    Makes (fun step => step = .convert n) n.roundHalfAway := by
  -- Rounding itself cannot fail: only the conversion of a large whole number can.
  have converts : Makes (fun step => step = .convert n) n.toFloat := by
    simpa only [id_map] using Makes.single rfl id
  cases n with
  | int value => exact converts.map fun _ => .ok _
  | float value => exact converts.map fun _ => .ok _

/-- The bounds of a range are converted one after the other. -/
theorem makes_roundBounds (low high : Number) :
    Makes (fun step => step = .convert low ∨ step = .convert high) (do
      let low ← (Value.num low).roundHalfAway
      return range .integer low (← (Value.num high).roundHalfAway)) := by
  have value (n : Number) : Makes (fun step => step = .convert n) (Value.num n).roundHalfAway :=
    (makes_roundHalfAway n).map fun _ => .ok _
  exact (value low).bind fun _ _ => (value high).map fun _ => .ok _

/-- Rounding a description converts the numbers in it. -/
theorem makes_round {description : Description} (numeric : description.Numeric) :
    Makes description.Rounds description.round := by
  -- The induction is on the description; what is no number stays as it is.
  induction description using induction_parts with
  | atom value =>
    rw [Description.round]
    -- A number is rounded itself, in one step.
    cases known : value.number? with
    | none =>
      refine .still _ ?_
      rintro _ ⟨_, ⟨⟩, rfl⟩
      cases known
    | some n =>
      cases Value.number?_eq_some.mp known
      refine ((makes_roundHalfAway n).map fun _ => .ok _).congr fun step => ?_
      refine ⟨fun same => ⟨n, .number n, same⟩, ?_⟩
      rintro ⟨_, ⟨⟩, rfl⟩
      rfl
  | range kind low high =>
    obtain ⟨_⟩ := numeric.meets
    next low high _ =>
    -- Only the bounds of a range of floats are rounded.
    cases kind with
    | integer =>
      refine .still _ ?_
      rintro _ ⟨_, ⟨⟩, _⟩
    | float =>
      refine (makes_roundBounds low high).congr fun step => ?_
      constructor
      · rintro (rfl | rfl)
        · exact ⟨low, .low low _, rfl⟩
        · exact ⟨high, .high _ high, rfl⟩
      · rintro ⟨n, rounded, rfl⟩
        cases rounded with
        | low => exact .inl rfl
        | high => exact .inr rfl
  -- The steps of a choice are those of its options.
  | select limit options ih =>
    have each := Numeric.lasting.options numeric
    rw [Description.round, roundItems_eq_mapM]
    refine ((Makes.mapM fun option member => ih option member (each option member)).map
      fun _ => .ok _).congr fun step => ?_
    constructor
    · rintro ⟨option, member, n, rounded, rfl⟩
      exact ⟨n, .option member rounded, rfl⟩
    · rintro ⟨n, ⟨⟩, rfl⟩
      next member rounded => exact ⟨_, member, n, rounded, rfl⟩
  -- The steps of a union are those of its variants.
  | union variants ih =>
    have each := Numeric.lasting.variants numeric
    rw [Description.round, roundItems_eq_mapM]
    refine ((Makes.mapM fun variant member => ih variant member (each variant member)).map
      fun _ => .ok _).congr fun step => ?_
    constructor
    · rintro ⟨variant, member, n, rounded, rfl⟩
      exact ⟨n, .variant member rounded, rfl⟩
    · rintro ⟨n, ⟨⟩, rfl⟩
      next member rounded => exact ⟨_, member, n, rounded, rfl⟩
  | array | object =>
    refine .still _ ?_
    rintro _ ⟨_, ⟨⟩, _⟩

end Rounding
end Description
end TrialScript
