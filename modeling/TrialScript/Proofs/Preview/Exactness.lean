import TrialScript.Report
import TrialScript.Proofs.Description.Exact
import TrialScript.Proofs.Evaluation.Commuting
import TrialScript.Proofs.Store.Mapped

/-! Exactness: a script without chance, branches or inputs does exactly what its preview says. -/

namespace TrialScript

/-- A constant, a variable, or a calculation without a quotient, in which no number is rounded. -/
inductive Tree.Exact : Tree → Prop where
  | scalar {value : Scalar} (noFloat : ∀ x, value ≠ .num (.float x)) : Exact (.scalar value)
  | literal {value : Scalar} (noFloat : ∀ x, value ≠ .num (.float x)) :
      Exact (.literal (.scalar value))
  | lookup (name : String) : Exact (.lookup name)
  | fold (op : FoldOp) {operands : List Tree} (some : operands ≠ [])
      (each : ∀ operand ∈ operands, Exact operand) : Exact (.fold op operands)
  | calculate {op : Calculation} {left right : Tree} (noQuotient : op ≠ .divide)
      (first : Exact left) (second : Exact right) : Exact (.binary (.calculate op) left right)
  | negate {operand : Tree} (inner : Exact operand) : Exact (.unary .negate operand)
  | round {operand : Tree} (inner : Exact operand) : Exact (.unary .round operand)

/-- The variables of a trial hold no rounded number. -/
def Trial.Unrounded (trial : Trial) : Prop :=
  ∀ name value, trial.variables.lookup name = some value → value.Unrounded

/-- A trial without rounded numbers has none after another such value is assigned. -/
theorem Trial.Unrounded.assign {trial : Trial} (unrounded : trial.Unrounded) (name : String)
    {value : Value} (fine : value.Unrounded) : (trial.assign name value).Unrounded := by
  -- A name finds the assigned value or what it found before.
  intro other held found
  simp only [Trial.assign, Store.lookup_assign] at found
  split at found
  · cases found
    exact fine
  · exact unrounded other held found

/-- The value of a variable is no rounded number, also where it has none. -/
theorem Trial.Unrounded.get {trial : Trial} (unrounded : trial.Unrounded) (name : String) :
    (trial.variables.get name .null).Unrounded := by
  unfold Store.get
  cases found : trial.variables.lookup name with
  | none => exact .of_scalar (by simp)
  | some value => exact unrounded name value found

/-- The variables of a trial, each with an exact description. -/
def Trial.described (trial : Trial) : Store Description :=
  trial.variables.map .atom

variable {α β γ δ : Type}

/-- A run that finishes changes nothing, and a survey of the variables finds what fits it. -/
def Foretells (survey : Survey γ) (run : Run α) (fits : γ → α → Prop) : Prop :=
  ∀ trial after value, trial.returned = false → trial.Unrounded →
    run.run trial = (.ok value, after) →
    after = trial ∧ ∃ found, survey.run trial.described = (.ok found, trial.described) ∧
      fits found value

namespace Foretells

variable {survey : Survey γ} {run : Run α} {fits : γ → α → Prop}

/-- A result that fits what is described is foretold, since neither side does anything. -/
theorem pure {found : γ} {value : α} (fitting : fits found value) :
    Foretells (pure found) (pure value) fits := by
  intro trial after result _ _ ran
  cases ran
  exact ⟨rfl, found, rfl, fitting⟩

/-- Two runs in a row are foretold by two surveys in a row. -/
theorem bind {rest : γ → Survey δ} {next : α → Run β} {fitsAfter : δ → β → Prop}
    (first : Foretells survey run fits)
    (second : ∀ found value, fits found value → Foretells (rest found) (next value) fitsAfter) :
    Foretells (survey >>= rest) (run >>= next) fitsAfter := by
  -- The first run leaves the trial unreturned and unrounded, which is where the second one starts.
  intro trial after result running unrounded ran
  obtain ⟨value, middle, began, ended⟩ := Stateful.run_bind_ok ran
  obtain ⟨rfl, found, foretold, fitting⟩ := first trial middle value running unrounded began
  obtain ⟨rfl, last, foretold', fitting'⟩ :=
    second found value fitting middle after result running unrounded ended
  refine ⟨rfl, last, ?_, fitting'⟩
  rw [Stateful.run_bind, foretold]
  exact foretold'

/-- A check that only the run makes is passed when the run finishes. -/
theorem check {checked : Except Fault β} {next : β → Run α}
    (onward : ∀ held, checked = .ok held → Foretells survey (next held) fits) :
    Foretells survey (liftM checked >>= next) fits := by
  -- A check changes no state, so the survey need not know of it.
  intro trial after result running unrounded ran
  obtain ⟨held, middle, passed, ended⟩ := Stateful.run_bind_ok ran
  rw [Stateful.run_lift] at passed
  cases passed
  exact onward held rfl trial after result running unrounded ended

/-- A result that needs no state is foretold by a description that needs none. -/
theorem lift {described : Except Fault γ} {result : Except Fault α}
    (gives : ∀ value, result = .ok value → ∃ found, described = .ok found ∧ fits found value) :
    Foretells (liftM described) (liftM result) fits := by
  intro trial after value _ _ ran
  cases ran
  obtain ⟨found, rfl, fitting⟩ := gives value rfl
  exact ⟨rfl, found, rfl, fitting⟩

/-- The latch is open wherever something is foretold. -/
theorem unlessReturned {run : Run Value} {fits : γ → Value → Prop}
    (foretells : Foretells survey run fits) : Foretells survey (unlessReturned run) fits := by
  intro trial after value running unrounded ran
  rw [run_unlessReturned running] at ran
  exact foretells trial after value running unrounded ran

/-- Operands that are foretold one by one, and are demanded to be numbers, are foretold together. -/
theorem numbers {operation : String} {operands : List Tree}
    (each : ∀ operand ∈ operands,
      Foretells (preview operand) (evaluate operand) Description.Exactly) :
    Foretells (previewItems operands) (evaluateNumbers operation operands) fun found numbers =>
      found = numbers.map Description.ofNumber ∧ numbers.length = operands.length ∧
        ∀ number ∈ numbers, number.Unrounded := by
  -- The induction is on the operands, of which each gives one number.
  induction operands with
  | nil => exact .pure ⟨rfl, rfl, by simp⟩
  | cons operand rest ih =>
    obtain ⟨here, others⟩ := List.forall_mem_cons.mp each
    rw [previewItems, evaluateNumbers]
    refine here.bind ?_
    rintro _ value ⟨rfl, fine⟩
    refine .check fun number demanded => ?_
    cases numberFor_ok demanded
    refine (ih others).bind ?_
    rintro _ numbers ⟨rfl, count, unrounded⟩
    have each : ∀ given ∈ number :: numbers, given.Unrounded :=
      List.forall_mem_cons.mpr ⟨fine number rfl, unrounded⟩
    exact .pure ⟨rfl, congrArg (· + 1) count, each⟩

end Foretells

/-- What a script of exact calculations gives is exactly what its preview describes. -/
theorem Tree.Exact.foretells {tree : Tree} (exact : tree.Exact) :
    Foretells (preview tree) (evaluate tree) Description.Exactly := by
  -- The induction follows the script.
  induction exact with
  | scalar noFloat =>
    rw [preview, evaluate]
    exact .unlessReturned (.pure ⟨rfl, .of_scalar noFloat⟩)
  | literal noFloat =>
    rw [preview, evaluate]
    exact .unlessReturned (.pure ⟨rfl, .of_scalar noFloat⟩)
  | lookup name =>
    intro trial after value running unrounded ran
    rw [evaluate, run_unlessReturned running] at ran
    cases ran
    -- A name without a value is null for the run, and unknown is how null is described.
    have same := Store.get_map Description.atom trial.variables name .null
    exact ⟨rfl, _, rfl, same, unrounded.get name⟩
  | @fold op operands some _ ih =>
    rw [preview, evaluate]
    refine .unlessReturned ((Foretells.numbers ih).bind ?_)
    rintro _ numbers ⟨rfl, count, unrounded⟩
    have some : numbers ≠ [] := by
      rintro rfl
      exact some (List.length_eq_zero_iff.mp count.symm)
    refine .check fun result gave => ?_
    obtain ⟨described, exactly⟩ := op.exactly some unrounded gave
    rw [described]
    exact .pure exactly
  | calculate noQuotient _ _ ih ih' =>
    rw [preview, evaluate]
    refine .unlessReturned (ih.bind ?_)
    rintro _ left ⟨rfl, fine⟩
    -- Only the run looks at the left operand before it goes on to the right one.
    refine .check fun _ _ => ih'.bind ?_
    rintro _ right ⟨rfl, fine'⟩
    exact .lift fun value gave => Calculation.exactly noQuotient fine fine' gave
  | negate _ ih =>
    rw [preview, evaluate.eq_def]
    refine .unlessReturned (ih.bind ?_)
    rintro _ operand ⟨rfl, fine⟩
    exact .lift fun value gave => UnaryOp.negate_exactly fine gave
  | round _ ih =>
    rw [preview, evaluate.eq_def]
    refine .unlessReturned (ih.bind ?_)
    rintro _ operand ⟨rfl, fine⟩
    exact .lift fun value gave => UnaryOp.round_exactly fine gave

namespace Assignment

variable {trial after : Trial} {value : Value}

/-- A step whose name is new is foretold along with the variable that it leaves behind. -/
theorem foretold {assignment : Assignment} (exact : assignment.value.Exact)
    (running : trial.returned = false) (unrounded : trial.Unrounded)
    (fresh : trial.variables.lookup assignment.name = none)
    (ran : (evaluate assignment.step).run trial = (.ok value, after)) :
    after = trial.assign assignment.name value ∧ value.Unrounded ∧
      (preview assignment.step).run trial.described = (.ok (.atom value), after.described) := by
  rw [step, evaluate, run_unlessReturned running] at ran
  obtain ⟨result, middle, began, ended⟩ := Stateful.run_bind_ok ran
  cases ended
  obtain ⟨rfl, _, foretold, rfl, fine⟩ := exact.foretells _ _ _ running unrounded began
  refine ⟨rfl, fine, ?_⟩
  -- The name is unknown so far, which gives way to any description.
  have unknown : middle.described.get assignment.name .unknown = .unknown := by
    rw [Trial.described, Store.get, Store.lookup_map, fresh]
    rfl
  have described : (middle.assign assignment.name value).described =
      middle.described.assign assignment.name (.atom value) :=
    Store.map_assign Description.atom middle.variables assignment.name value
  rw [described, step, preview, Stateful.run_bind, foretold]
  simp only [describe, Stateful.run_bind, Stateful.run_get, unknown, Description.merge]
  rfl

/-- Steps that assign new names, none twice, are foretold with all that they leave behind. -/
theorem foretold_steps {assignments : List Assignment}
    (exact : ∀ assignment ∈ assignments, assignment.value.Exact)
    (distinct : (assignments.map name).Nodup) (running : trial.returned = false)
    (unrounded : trial.Unrounded)
    (fresh : ∀ assignment ∈ assignments, trial.variables.lookup assignment.name = none)
    {last : Value}
    (ran : (evaluateSteps last (assignments.map step)).run trial = (.ok value, after)) :
    (previewSteps (.atom last) (assignments.map step)).run trial.described =
      (.ok (.atom value), after.described) := by
  -- The induction is over the steps, after each of which the later names are still new.
  induction assignments generalizing trial last with
  | nil =>
    cases ran
    rfl
  | cons assignment rest ih =>
    obtain ⟨here, others⟩ := List.forall_mem_cons.mp exact
    obtain ⟨isFresh, freshRest⟩ := List.forall_mem_cons.mp fresh
    obtain ⟨unassigned, distinct⟩ := List.nodup_cons.mp distinct
    rw [List.map_cons, evaluateSteps, Stateful.run_bind, Stateful.run_get] at ran
    simp only [running, Bool.false_eq_true, if_false] at ran
    obtain ⟨given, middle, began, ended⟩ := Stateful.run_bind_ok ran
    obtain ⟨rfl, fine, foretold⟩ := foretold here running unrounded isFresh began
    -- The name assigned here is none of the later ones.
    have freshLater : ∀ later ∈ rest,
        (trial.assign assignment.name given).variables.lookup later.name = none := by
      intro later member
      have differs : assignment.name ≠ later.name := fun same =>
        unassigned (same ▸ List.mem_map_of_mem member)
      rw [Trial.assign, Store.lookup_assign, if_neg differs, freshRest later member]
    have runningLater : (trial.assign assignment.name given).returned = false := running
    have foretoldRest := ih others distinct runningLater (unrounded.assign assignment.name fine)
      freshLater ended
    -- The description of the value is exact, so that the rest is previewed from the same variables.
    rw [List.map_cons, previewSteps, Stateful.run_bind, foretold]
    exact foretoldRest

end Assignment

/-- Written out, exact descriptions are the values that they describe. -/
theorem metadataValue_exact (table : Table Value) :
    metadataValue (table.mapValues .atom) = .dict [("parameters", .dict table)] := by
  simp [metadataValue, Table.mapValues, Function.comp_def, Description.toValue]

/--
Without chance, branches and inputs, a preview is the outcome.

If a script that assigns exact calculations to different names finishes, its preview lists the same
names as the run, in the same order, and describes each as exactly the value that it has.
-/
theorem inspect_eq_execute {script : Value} {assignments : List Assignment}
    (parsed : Tree.parse script = .ok (Assignment.sequence assignments))
    (exact : ∀ assignment ∈ assignments, assignment.value.Exact)
    (distinct : (assignments.map Assignment.name).Nodup)
    {title : String} {settings : Settings} {trial : Trial} {held : Store Value}
    (finished : execute title script .none settings = (.ok trial, held)) :
    ∃ described, inspect script (.ok .none) = .ok described ∧
      metadataValue described = .dict [("parameters", .dict trial.variables.toTable)] := by
  -- The run has finished, so its policy was accepted and its steps have run.
  simp only [execute, parsed] at finished
  split at finished
  · cases finished
  · cases finished
  next tree policy isTree _ =>
  cases isTree
  split at finished
  · cases finished
  next value after ran =>
  obtain ⟨finished, -⟩ := Prod.mk.inj finished
  cases finished
  rw [Assignment.sequence, evaluate, run_unlessReturned rfl] at ran
  -- At the start of a run no variable holds anything that was rounded.
  have unrounded : (Trial.start title policy Inputs.none.variables).Unrounded := by
    intro name value found
    cases found
  have foretold := Assignment.foretold_steps exact distinct rfl unrounded (fun _ _ => rfl) ran
  -- The table of the preview is that of the run, with exact descriptions for values.
  refine ⟨trial.described.toTable, ?_, ?_⟩
  · have previewed : (preview (Assignment.sequence assignments)).run Inputs.none.symbols =
        (.ok (.atom value), trial.described) := by
      rw [Assignment.sequence, preview]
      exact foretold
    simp only [inspect, parsed, Bind.bind, Except.bind, inspectTree, previewed]
  · rw [Trial.described, Store.toTable_map]
    exact metadataValue_exact trial.variables.toTable

/-- An undefined remainder and what is made of it, a rounded opposite, and an early read. -/
theorem inspect_eq_execute_undefined :
    let held (name : String) : Value := .dict [("op", .str "get"), ("var", .str name)]
    let step (name : String) (value : Value) : Value :=
      .dict [("op", .str "set"), ("var", .str name), ("value", value)]
    let rest : Value := .dict [("op", .str "%"), ("left", .int 7), ("right", .int 0)]
    let sum : Value := .dict [("op", .str "sum"), ("values", .list [held "rest", .int 1])]
    let least : Value := .dict [("op", .str "min"), ("values", .list [.int 3, held "rest"])]
    let opposite : Value := .dict [("op", .str "negative"), ("value", least)]
    let low : Value := .dict [("op", .str "round"), ("value", opposite)]
    let script : Value := .dict [("op", .str "seq"), ("seq", .list
      [step "rest" rest, step "sum" sum, step "low" low, step "early" (held "late"),
        step "late" (.str "end")])]
    ∃ trial described, (execute "exp" script .none (.ofFields [])).1 = .ok trial ∧
      trial.variables.toTable = [("rest", .float .nan), ("sum", .float .nan), ("low", .int (-3)),
        ("early", .null), ("late", .str "end")] ∧
      inspect script (.ok .none) = .ok described ∧
      metadataValue described = .dict [("parameters", .dict trial.variables.toTable)] := by
  -- The run is evaluated once; parsing and the sort of each assignment are read from the script.
  intro held step rest sum least opposite low script
  let integer (value : Int) : Tree := .scalar (.num (.int value))
  let assignments : List Assignment :=
    [⟨"rest", .binary (.calculate .remainder) (integer 7) (integer 0)⟩,
      ⟨"sum", .fold .sum [.lookup "rest", integer 1]⟩,
      ⟨"low", .unary .round (.unary .negate (.fold .least [integer 3, .lookup "rest"]))⟩,
      ⟨"early", .lookup "late"⟩, ⟨"late", .scalar (.str "end")⟩]
  have parsed : Tree.parse script = .ok (Assignment.sequence assignments) := by
    cbv
  have whole (value : Int) : (integer value).Exact := .scalar (by simp)
  have exact : ∀ assignment ∈ assignments, assignment.value.Exact := by
    simp only [assignments, List.forall_mem_cons, List.not_mem_nil, false_imp_iff, implies_true,
      and_true]
    refine ⟨.calculate (by simp) (whole 7) (whole 0), .fold .sum (by simp) ?_,
      .round (.negate (.fold .least (by simp) ?_)), .lookup "late", .scalar (by simp)⟩
    · exact List.forall_mem_cons.mpr ⟨.lookup "rest", List.forall_mem_singleton.mpr (whole 1)⟩
    · exact List.forall_mem_cons.mpr ⟨whole 3, List.forall_mem_singleton.mpr (.lookup "rest")⟩
  have distinct : (assignments.map Assignment.name).Nodup := by
    simp [assignments]
  -- The run is evaluated as a whole, and what it leaves is read off its outcome.
  have left : (execute "exp" script .none (.ofFields [])).1.toOption.map
      (fun trial => trial.variables.toTable) = some [("rest", .float .nan), ("sum", .float .nan),
        ("low", .int (-3)), ("early", .null), ("late", .str "end")] := by
    decide +kernel
  cases finished : execute "exp" script .none (.ofFields []) with
  | mk outcome kept =>
    rw [finished] at left
    cases outcome with
    | error fault => cases left
    | ok trial =>
      obtain ⟨described, inspected, same⟩ := inspect_eq_execute parsed exact distinct finished
      exact ⟨trial, described, rfl, Option.some.inj left, inspected, same⟩

end TrialScript
