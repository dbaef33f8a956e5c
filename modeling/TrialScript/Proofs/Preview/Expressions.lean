import TrialScript.Proofs.Preview.Tracking
import TrialScript.Proofs.Trial.Draws

/-! Expressions: the description of a result fits every value that an evaluation can give. -/

namespace TrialScript

/-- The integer that a script is written as. -/
def Tree.integer? : Tree → Option Int
  | .scalar (.num (.int value)) | .literal (.int value) => some value
  | _ => none

/-- A script of constants, variables, assignments, returns, tests and draws whose result can be described. -/
inductive Expression : Tree → Prop where
  | scalar {value : Scalar} (regular : (Value.scalar value).Regular) : Expression (.scalar value)
  | literal {value : Value} (regular : value.Regular) : Expression (.literal value)
  | array {items : List Tree} (each : ∀ item ∈ items, Expression item) : Expression (.array items)
  | lookup (name : String) : Expression (.lookup name)
  | assign (name : String) {value : Tree} (valued : Expression value) :
      Expression (.assign name value)
  | finish {operand : Tree} (inner : Expression operand) : Expression (.unary .finish operand)
  | not {operand : Tree} (inner : Expression operand) : Expression (.unary .not operand)
  | equals {left right : Tree} (first : Expression left) (second : Expression right) :
      Expression (.binary .equals left right)
  | order (op : Comparison) {left right : Tree} (first : Expression left)
      (second : Expression right) :
      Expression (.binary (.order op) left right)
  | connective (op : Connective) {operands : List Tree}
      (each : ∀ operand ∈ operands, Expression operand) :
      Expression (.connective op operands)
  | includes {collection item : Tree} (outer : Expression collection) (inner : Expression item) :
      Expression (.includes collection item)
  | uniformChoice {items : List Tree} {unit : Tree} (each : ∀ item ∈ items, Expression item)
      (silent : unit.assigned = []) : Expression (.uniformChoice (.array items) unit)
  | weightedChoice {items : List Tree} {weights unit : Tree}
      (each : ∀ item ∈ items, Expression item)
      (silentWeights : weights.assigned = []) (silent : unit.assigned = []) :
      Expression (.weightedChoice (.array items) weights unit)
  | bernoulliTrial {probability unit : Tree} (silentProbability : probability.assigned = [])
      (silent : unit.assigned = []) : Expression (.bernoulliTrial probability unit)
  | randomInteger {low high unit : Tree} {least most : Int} (atLeast : low.integer? = some least)
      (atMost : high.integer? = some most) (silent : unit.assigned = []) :
      Expression (.randomRange .integer low high unit)

namespace Description

/-- Either of two scalars fits the choice between them. -/
theorem fits_either {left right value : Scalar} (regular : (Value.scalar value).Regular)
    (isEither : value = left ∨ value = right) :
    (oneOf [.atom (.scalar left), .atom (.scalar right)]).Fits (.scalar value) := by
  -- Both options are exact values, one of which is the scalar itself.
  constructor
  · refine .select trivial fun option member => ?_
    simp only [List.mem_cons, List.not_mem_nil, or_false] at member
    rcases member with rfl | rfl <;> exact .atom trivial
  by_cases known : Value.scalar value = .null
  · exact known ▸ describes_null _
  rw [oneOf, describes_select known, Bool.and_eq_true, describesAny_iff]
  refine ⟨isSingle_one, .atom (.scalar value), ?_, ?_⟩
  · rcases isEither with rfl | rfl <;> simp
  · rw [describes_atom known]
    exact regular.sameAtomic_self

/-- Either truth value fits the description of truth values. -/
theorem fits_boolean (value : Bool) : boolean.Fits (.bool value) :=
  fits_either (.scalar (by simp)) (by cases value <;> simp)

/-- Zero and one fit the description of a trial with a probability. -/
theorem fits_bit {bit : Int} (isBit : bit = 0 ∨ bit = 1) :
    (oneOf [.atom (.int 0), .atom (.int 1)]).Fits (.int bit) := by
  refine fits_either (.scalar ?_) (by simpa using isBit)
  rintro number ⟨⟩
  rfl

/-- What is drawn between two integers fits their range. -/
theorem fits_integerBetween {trial : Trial} {low high : Int} {salt : Value} {drawn : Number}
    (gave : trial.integerBetween (.int low) (.int high) salt = .ok drawn) :
    (range .integer (.int low) (.int high)).Fits (.num drawn) := by
  -- The bounds of the draw are those of the range.
  obtain ⟨whole, rfl, atLeast, atMost⟩ := Trial.integerBetween_bounds gave
  refine ⟨.range ⟨rfl, rfl⟩, (describes_range (by simp)).mpr ⟨rfl, whole, rfl, ?_, ?_⟩⟩
  · exact Value.atMost_num_iff.mpr ⟨_, rfl, Number.int_atMost_int atLeast⟩
  · exact Value.atMost_num_iff.mpr ⟨_, rfl, Number.int_atMost_int atMost⟩

/-- An item of a list fits the choice of one among the descriptions of the items. -/
theorem fits_oneOf {items : List Description} {values : List Value} {value : Value}
    (fits : (array items).Fits (.list values)) (member : value ∈ values) :
    (oneOf items).Fits value := by
  -- One option is enough, and the choice allows one.
  obtain ⟨proper, describes⟩ := fits
  refine ⟨.select trivial proper.items, ?_⟩
  by_cases known : value = .null
  · exact known ▸ describes_null _
  rw [oneOf, describes_select known, Bool.and_eq_true, describesAny_iff]
  refine ⟨isSingle_one, ?_⟩
  -- The item at the position of the value describes it.
  have paired := describesEach_iff.mp describes
  obtain ⟨index, inside, rfl⟩ := List.getElem_of_mem member
  have inside' : index < items.length := paired.length_eq ▸ inside
  exact ⟨items[index], List.getElem_mem inside',
    List.forall₂_iff_get.mp paired |>.2 index inside' inside⟩

end Description

instance : Nonempty Trial :=
  ⟨.start "" .default default⟩

namespace Tracks

/-- Merging the description of a value into what is known of a name tracks the assignment of the value. -/
theorem describe {name : String} {description : Description} {value : Value}
    (fits : description.Fits value) :
    Tracks (describe name description)
      (do modify (Trial.assign name value); return value) Description.Fits := by
  -- Merging covers what was known and what is given, so the value fits the result.
  intro before trial fit
  have known := fit.proper_get name
  obtain ⟨merged, made, proper⟩ := Description.Proper.hereditary.merge known fits.1
  have fitsMerged : merged.Fits value := ⟨proper, Description.describes_of_merge known made fits.2⟩
  refine ⟨merged, before.assign name merged, ?_, .assign_merged made, fit.assign fitsMerged,
    ⟨value, fitsMerged⟩, ?_⟩
  · simp only [TrialScript.describe, Stateful.run_bind, Stateful.run_get, Stateful.run_lift, made]
    rfl
  · rintro _ ⟨⟩
    exact fitsMerged

/-- What is known of a name tracks a look at its value. -/
theorem lookup (name : String) : Tracks (do return (← get).get name .unknown : Survey Description)
    (do return (← get).variables.get name .null : Run Value) Description.Fits := by
  intro before trial fit
  refine ⟨_, before, rfl, .refl before, fit, ⟨_, fit.fits_get name⟩, ?_⟩
  rintro _ ⟨⟩
  exact fit.fits_get name

section Parts

variable {parts : List Tree}
  (each : ∀ part ∈ parts, Tracks (preview part) (evaluate part) Description.Fits)

include each

/-- The descriptions of items track their values, one for one. -/
theorem items : Tracks (previewItems parts) (evaluateItems parts)
    fun descriptions values => (Description.array descriptions).Fits (.list values) := by
  -- The induction is on the items, and the lists stay in step.
  induction parts with
  | nil => exact .pure ⟨.array trivial (by simp), rfl⟩
  | cons part rest ih =>
    obtain ⟨here, others⟩ := List.forall_mem_cons.mp each
    rw [previewItems, evaluateItems]
    refine here.bind fun first value fits => ?_
    refine (ih others).bind fun descriptions values fitsRest => .pure ?_
    obtain ⟨proper, describes⟩ := fits
    obtain ⟨properRest, describesRest⟩ := fitsRest
    refine ⟨.array trivial (List.forall_mem_cons.mpr ⟨proper, properRest.items⟩), ?_⟩
    exact Bool.and_eq_true_iff.mpr ⟨describes, describesRest⟩

/-- The description of a list tracks the list. -/
theorem array : Tracks (preview (.array parts)) (evaluate (.array parts)) fun description value =>
    description.Fits value ∧ ∃ descriptions, description = .array descriptions := by
  -- After a return the items are not run, and null is described by anything.
  rw [preview, evaluate]
  refine whileRunning ((items each).bind fun descriptions values fits => ?_) ?_
  · exact .pure ⟨fits, descriptions, rfl⟩
  · intro _ _ fits
    exact ⟨fits.1.1.fits_null, fits.2⟩

end Parts

/-- Describing operands tracks a test of the first one that may go on in two ways. -/
theorem operand {part : Tree} {rest : List Tree} {met unmet : Run Bool}
    (here : Tracks (preview part) (evaluate part) Description.Fits)
    (further : Tracks (previewItems rest) met fun _ _ => True)
    (further' : Tracks (previewItems rest) unmet fun _ _ => True) :
    Tracks (previewItems (part :: rest)) (do if ← (← evaluate part).truthy then met else unmet)
      fun _ _ => True := by
  -- The survey goes on with the rest in either case, so both ways must be tracked by it.
  rw [previewItems]
  refine here.bind fun _ value _ => after_any (.lift value.truthy) fun holds => ?_
  cases holds with
  | true => exact further.map fun _ _ _ => trivial
  | false => exact further'.map fun _ _ _ => trivial

section Operands

variable {operands : List Tree}
  (each : ∀ operand ∈ operands, Tracks (preview operand) (evaluate operand) Description.Fits)

include each

/-- Describing all operands tracks their evaluation up to one that does not hold. -/
theorem all : Tracks (previewItems operands) (evaluateAll operands) fun _ _ => True := by
  -- The induction is on the operands: at the first that does not hold the run is done.
  induction operands with
  | nil => exact .pure trivial
  | cons operand rest ih =>
    obtain ⟨here, others⟩ := List.forall_mem_cons.mp each
    exact here.operand (ih others) ((ih others).idle fun _ _ _ => trivial)

/-- Describing all operands tracks their evaluation up to one that holds. -/
theorem any : Tracks (previewItems operands) (evaluateAny operands) fun _ _ => True := by
  -- The induction is on the operands: at the first that holds the run is done.
  induction operands with
  | nil => exact .pure trivial
  | cons operand rest ih =>
    obtain ⟨here, others⟩ := List.forall_mem_cons.mp each
    exact here.operand ((ih others).idle fun _ _ _ => trivial) (ih others)

end Operands

/-- The choice of one description tracks a draw that gives one of the choices. -/
theorem choice {descriptions : List Description} {choices : Value} {operation : String}
    {draw : List Value → Run Value} (fits : (Description.array descriptions).Fits choices)
    (still : ∀ items, Still (draw items))
    (gives : ∀ items trial chosen, ((draw items).run trial).1 = .ok chosen → chosen ∈ items) :
    Tracks (Pure.pure (describeChoices onlyOne (.array descriptions)))
      (liftM (arrayFor operation choices) >>= draw) Description.Fits := by
  have proper : (Description.oneOf descriptions).Proper := .select trivial fits.1.items
  refine of_still (.bind (.lift _) still) ⟨.null, proper.fits_null⟩ fun trial chosen gave => ?_
  -- Only a list has anything to choose from.
  cases choices with
  | list items => exact Description.fits_oneOf fits (gives items trial chosen gave)
  | _ => cases gave

/-- The description of a written integer tracks the integer. -/
theorem integer {tree : Tree} {whole : Int} (written : tree.integer? = some whole) :
    Tracks (preview tree) (evaluate tree) fun description value =>
      description = .atom (.int whole) ∧ (value = .int whole ∨ value = .null) := by
  -- Both ways to write an integer give it, unless the trial has returned.
  unfold Tree.integer? at written
  split at written
  · cases written
    rw [preview, evaluate]
    exact whileRunning (.pure ⟨rfl, .inl rfl⟩) fun _ _ fits => ⟨fits.1, .inr rfl⟩
  · cases written
    rw [preview, evaluate]
    exact whileRunning (.pure ⟨rfl, .inl rfl⟩) fun _ _ fits => ⟨fits.1, .inr rfl⟩
  · cases written

section Operations

variable {operand left right : Tree}

/-- A return tracks its operand: neither latch is a variable. -/
theorem finish (inner : Tracks (preview operand) (evaluate operand) Description.Fits) :
    Tracks (preview (.unary .finish operand))
      (evaluate (.unary .finish operand)) Description.Fits := by
  rw [preview, evaluate]
  refine .unlessReturned (inner.bind fun description value fits => ?_)
  refine .after_any (fun _ => rfl) fun _ => ?_
  -- Taking the subject out of the experiment changes no variable either.
  split
  · exact .after_any (fun _ => rfl) fun _ => .pure fits
  · exact .pure fits

/-- A negation gives a truth value. -/
theorem not (inner : Tracks (preview operand) (evaluate operand) Description.Fits) :
    Tracks (preview (.unary .not operand)) (evaluate (.unary .not operand)) Description.Fits := by
  -- Whatever the operand is, its negation is a truth value or stops.
  rw [preview, evaluate]
  · refine .unlessReturned (inner.bind fun _ value _ => ?_)
    refine .of_still (.lift _) ⟨_, Description.fits_boolean true⟩ fun trial result gave => ?_
    obtain ⟨holds, -, same⟩ := check_bind_ok gave
    cases same
    exact Description.fits_boolean _
  · simp

/-- A test of equality gives a truth value. -/
theorem equals (first : Tracks (preview left) (evaluate left) Description.Fits)
    (second : Tracks (preview right) (evaluate right) Description.Fits) :
    Tracks (preview (.binary .equals left right))
      (evaluate (.binary .equals left right)) Description.Fits := by
  rw [preview, evaluate]
  · refine .unlessReturned (first.bind fun _ left _ => .after_any (.lift _) fun _ => ?_)
    exact second.bind fun _ right _ => .pure (Description.fits_boolean _)
  · simp

/-- A comparison gives a truth value, if it gives anything. -/
theorem order {op : Comparison} (first : Tracks (preview left) (evaluate left) Description.Fits)
    (second : Tracks (preview right) (evaluate right) Description.Fits) :
    Tracks (preview (.binary (.order op) left right)) (evaluate (.binary (.order op) left right))
      Description.Fits := by
  rw [preview, evaluate]
  · refine .unlessReturned (first.bind fun _ left _ => .after_any (.lift _) fun _ => ?_)
    refine second.bind fun _ right _ => ?_
    refine .of_still (.lift _) ⟨_, Description.fits_boolean true⟩ fun trial result gave => ?_
    -- Values without an order give no result.
    change (if left.comparable right then _ else _) = _ at gave
    split at gave
    · obtain ⟨holds, -, gave⟩ := check_bind_ok gave
      cases gave
      exact Description.fits_boolean _
    · cases gave
  · simp

end Operations

section Draws

variable {items : List Tree} {unit : Tree}

/-- A uniform choice gives one of the described items. -/
theorem uniformChoice
    (each : ∀ item ∈ items, Tracks (preview item) (evaluate item) Description.Fits)
    (silent : unit.assigned = []) :
    Tracks (preview (.uniformChoice (.array items) unit))
      (evaluate (.uniformChoice (.array items) unit)) Description.Fits := by
  -- The unit is not surveyed, which is sound because it assigns nothing.
  rw [preview, evaluate]
  refine .unlessReturned ((array each).bind fun _ choices fits => ?_)
  obtain ⟨fits, descriptions, rfl⟩ := fits
  refine .choice fits (fun _ => ?_) fun items trial chosen gave => ?_
  · exact .bind (.evaluate silent) fun _ => .bind (fun _ => rfl) fun _ => .lift _
  · obtain ⟨salt, middle, -, drawn⟩ := Stateful.run_bind_ok (Prod.ext gave rfl)
    exact Trial.uniformChoice_mem (congrArg Prod.fst drawn)

/-- A weighted choice gives one of the described items. -/
theorem weightedChoice {weights : Tree}
    (each : ∀ item ∈ items, Tracks (preview item) (evaluate item) Description.Fits)
    (silentWeights : weights.assigned = []) (silent : unit.assigned = []) :
    Tracks (preview (.weightedChoice (.array items) weights unit))
      (evaluate (.weightedChoice (.array items) weights unit)) Description.Fits := by
  -- The weights and the unit are not surveyed, which is sound because they assign nothing.
  rw [preview, evaluate]
  refine .unlessReturned ((array each).bind fun _ choices fits => ?_)
  obtain ⟨fits, descriptions, rfl⟩ := fits
  refine .choice fits (fun _ => ?_) fun items trial chosen gave => ?_
  · refine .bind (.evaluate silentWeights) fun _ => .bind (.lift _) fun _ => ?_
    exact .bind (.evaluate silent) fun _ => .bind (fun _ => rfl) fun _ => .lift _
  · obtain ⟨weighted, middle, -, drawn⟩ := Stateful.run_bind_ok (Prod.ext gave rfl)
    obtain ⟨weights, middle, -, drawn⟩ := Stateful.run_bind_ok drawn
    obtain ⟨salt, middle, -, drawn⟩ := Stateful.run_bind_ok drawn
    exact Trial.weightedChoice_mem (congrArg Prod.fst drawn)

/-- A trial with a probability gives zero or one. -/
theorem bernoulliTrial {probability : Tree} (silentProbability : probability.assigned = [])
    (silent : unit.assigned = []) :
    Tracks (preview (.bernoulliTrial probability unit))
      (evaluate (.bernoulliTrial probability unit)) Description.Fits := by
  -- Neither part is surveyed, which is sound because both assign nothing.
  rw [preview, evaluate]
  refine .unlessReturned (.after_any (.evaluate silentProbability) fun found => ?_)
  refine .after_any (.lift _) fun p => ?_
  refine .after_any (.evaluate silent) fun salt => .after_any (fun _ => rfl) fun trial => ?_
  refine .after_still (.lift _) ⟨0, .inl rfl⟩ (fun _ _ gave => Trial.bernoulliTrial_bit gave) ?_
  exact fun bit isBit => .pure (Description.fits_bit isBit)

/-- The range between two integers tracks a draw between them. -/
theorem integerBetween (least most : Int) (salt : Value) :
    Tracks (Pure.pure (.range .integer (.int least) (.int most)))
      (do return .num (← (← get).integerBetween (.int least) (.int most) salt))
        Description.Fits := by
  -- The draw looks at the trial but changes nothing, and may fail for bounds in disorder.
  have proper : (Description.range .integer (.int least) (.int most)).Proper := .range ⟨rfl, rfl⟩
  refine .after_any (fun _ => rfl) fun trial => ?_
  refine .of_still ?_ ⟨.null, proper.fits_null⟩ fun _ value gave => ?_
  · exact .bind (.lift _) fun _ => .lift (.ok _)
  · obtain ⟨drawn, _, ran, same⟩ := Stateful.run_bind_ok (Prod.ext gave rfl)
    cases same
    exact Description.fits_integerBetween (congrArg Prod.fst ran)

/-- A written integer that is demanded as a number tracks a run that goes on with the integer. -/
theorem bound {α β : Type} {tree : Tree} {whole : Int} (written : tree.integer? = some whole)
    {operation : String} {survey : Description → Survey α} {run : Number → Run β}
    {fits : α → β → Prop}
    (next : Tracks (survey (.atom (.int whole))) (run (.int whole)) fits) :
    Tracks (preview tree >>= survey) (do run (← numberFor operation (← evaluate tree))) fits := by
  refine (integer written).bind fun description value isInteger => ?_
  obtain ⟨rfl, known⟩ := isInteger
  have possible : ∃ number, number = Number.int whole := ⟨_, rfl⟩
  refine .after_still (.lift _) possible (fun _ number gave => ?_) fun _ isWhole => isWhole ▸ next
  -- Only the integer itself is a number, and null is what a returned trial gives.
  rcases known with rfl | rfl
  · cases gave
    rfl
  · cases gave

/-- A draw between two written integers gives an integer between them. -/
theorem randomInteger {low high : Tree} {least most : Int} (atLeast : low.integer? = some least)
    (atMost : high.integer? = some most) (silent : unit.assigned = []) :
    Tracks (preview (.randomRange .integer low high unit))
      (evaluate (.randomRange .integer low high unit)) Description.Fits := by
  -- The bounds are known before any run, and the unit is not surveyed.
  rw [preview, evaluate]
  refine .unlessReturned (bound atLeast (bound atMost ?_))
  exact .after_any (.evaluate silent) fun salt => .integerBetween least most salt

end Draws
end Tracks

/-- The preview of an expression stays ahead of its evaluation. -/
theorem Expression.tracks {tree : Tree} (expression : Expression tree) :
    Tracks (preview tree) (evaluate tree) Description.Fits := by
  -- The induction follows the expression, and each operation keeps what holds of its operands.
  induction expression with
  | scalar regular =>
    rw [preview, evaluate]
    exact .unlessReturned (.pure ⟨.atom trivial, Description.describes_ofLiteral regular⟩)
  | literal regular =>
    rw [preview, evaluate]
    exact .unlessReturned
      (.pure ⟨Description.proper_ofLiteral _, Description.describes_ofLiteral regular⟩)
  | array _ ih => exact (Tracks.array ih).mono fun _ _ fits => fits.1
  | lookup name =>
    rw [preview, evaluate]
    exact .unlessReturned (.lookup name)
  -- An assignment keeps its own description of what it holds.
  | assign name _ ih =>
    rw [preview, evaluate]
    exact .unlessReturned (ih.bind fun _ _ fits => .describe fits)
  | finish _ ih => exact ih.finish
  | not _ ih => exact ih.not
  | equals _ _ ih ih' => exact ih.equals ih'
  | order op _ _ ih ih' => exact ih.order ih'
  -- A connective may stop early, but its value is a boolean all the same.
  | connective op _ ih =>
    cases op with
    | all =>
      rw [preview, evaluate]
      exact .unlessReturned ((Tracks.all ih).bind fun _ _ _ => .pure (Description.fits_boolean _))
    | any =>
      rw [preview, evaluate]
      exact .unlessReturned ((Tracks.any ih).bind fun _ _ _ => .pure (Description.fits_boolean _))
  | includes _ _ ih ih' =>
    rw [preview, evaluate]
    refine .unlessReturned (ih.bind fun _ collection _ => ih'.bind fun _ item _ => ?_)
    exact .after_any (.lift _) fun _ => .pure (Description.fits_boolean _)
  | uniformChoice _ silent ih => exact .uniformChoice ih silent
  | weightedChoice _ silentWeights silent ih => exact .weightedChoice ih silentWeights silent
  | bernoulliTrial silentProbability silent => exact .bernoulliTrial silentProbability silent
  | randomInteger atLeast atMost silent => exact .randomInteger atLeast atMost silent

end TrialScript
