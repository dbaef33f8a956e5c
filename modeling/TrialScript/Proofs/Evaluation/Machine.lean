import Mathlib.Logic.Relation
import TrialScript.Evaluation
import TrialScript.Proofs.Stateful

/-! Evaluation one step at a time: nodes in progress, and the moment at which each has an effect. -/

namespace TrialScript

/-- After the trial has returned, a script gives null and leaves the trial as it is. -/
theorem evaluate_of_returned (tree : Tree) {trial : Trial} (returned : trial.returned = true) :
    (evaluate tree).run trial = (.ok .null, trial) := by
  -- Every script asks for the latch before anything else.
  cases tree with
  | connective op operands =>
    cases op <;> simp [evaluate, unlessReturned, Stateful.run_bind, returned]
  | unary op operand => cases op <;> simp [evaluate, unlessReturned, Stateful.run_bind, returned]
  | _ => simp [evaluate, unlessReturned, Stateful.run_bind, returned]

/-- Before the trial has returned, a script does what its operation says. -/
theorem run_unlessReturned {trial : Trial} (running : trial.returned = false) (step : Run Value) :
    (unlessReturned step).run trial = step.run trial := by
  -- The latch is open, so the step is all that is left.
  simp [unlessReturned, Stateful.run_bind, running]

/-- What a node does to the trial when it is complete. -/
inductive Effect where
  | none
  | assign (name : String) (value : Value)
  | finish (value : Value)

/-- The trial after an effect. -/
def Effect.apply (trial : Trial) : Effect → Trial
  | .none => trial
  | .assign name value => trial.assign name value
  | .finish value =>
    if value = .bool false then trial.markReturned.disable else trial.markReturned

/-- What a node in progress does next. -/
inductive Move where
  | visit (part : Tree)
  | complete (value : Value) (effect : Effect)
  | stop (fault : Fault)

namespace Move

/-- The effect that a move has on the trial. -/
def effect : Move → Effect
  | .complete _ effect => effect
  | _ => .none

/-- Goes on with a result that may be a fault. -/
def check {α : Type} (result : Except Fault α) (next : α → Move) : Move :=
  match result with
  | .ok found => next found
  | .error fault => .stop fault

/-- Completes a node with a result and without an effect. -/
def give (result : Except Fault Value) : Move :=
  check result fun value => .complete value .none

/-- Visits a part once a check holds. -/
def visitAfter {α : Type} (part : Tree) (checked : Except Fault α) : Move :=
  check checked fun _ => .visit part

/-- Visits the first part that has no value yet, or goes on once every part has one. -/
def each (parts : List Tree) (values : List Value) (last : Move) : Move :=
  match parts[values.length]? with
  | some part => .visit part
  | none => last

/-- Visits operands until one has the truth value that decides the result. -/
def settle (decisive : Bool) (operands : List Tree) (values : List Value) : Move :=
  let next := each operands values (.complete (.bool !decisive) .none)
  match values.getLast? with
  | none => next
  | some value => check value.truthy fun holds =>
    if holds = decisive then .complete (.bool decisive) .none else next

/-- Visits guards until one holds, and then the body behind it. -/
def choose : List (Tree × Tree) → List Value → Move
  | [], _ => .complete .null .none
  | (guard, _) :: _, [] => .visit guard
  | (_, body) :: rest, value :: values => check value.truthy fun holds =>
    if holds then
      match values with
      | [] => .visit body
      | result :: _ => .complete result .none
    else choose rest values

end Move

/-- The next move of a node whose first parts have the given values. -/
def Tree.move (trial : Trial) (values : List Value) : Tree → Move
  | .scalar value => .complete (.scalar value) .none
  | .literal value => .complete value .none
  | .array items => .each items values (.complete (.list values) .none)
  | .lookup name => .complete (trial.variables.get name .null) .none
  | .assign name value =>
    match values.getLast? with
    | none => .visit value
    | some result => .complete result (.assign name result)
  | .sequence steps =>
    let last := .complete (values.getLast?.getD .null) .none
    if trial.returned then last else .each steps values last
  | .cond clauses => .choose clauses values
  | .binary op left right =>
    match values with
    | [] => .visit left
    | [x] => .visitAfter right <| op.admit x
    | x :: y :: _ => .give (op.apply x y)
  | .connective .all operands => .settle false operands values
  | .connective .any operands => .settle true operands values
  | .fold op operands => .check (values.mapM (numberFor op.name)) fun numbers =>
    .each operands values (.give (.num <$> op.apply numbers))
  | .unary .finish operand =>
    match values.getLast? with
    | none => .visit operand
    | some value => .complete value (.finish value)
  | .unary op operand =>
    match values with
    | [] => .visit operand
    | value :: _ => .give (op.apply value)
  | .randomRange kind low high unit =>
    match values with
    | [] => .visit low
    | [x] => .visitAfter high (numberFor kind.drawName x)
    | [_, y] => .visitAfter unit (numberFor kind.drawName y)
    | x :: y :: salt :: _ => .give do
      return .num (← kind.draw trial (← numberFor kind.drawName x)
        (← numberFor kind.drawName y) salt)
  | .bernoulliTrial probability unit =>
    match values with
    | [] => .visit probability
    | [x] => .visitAfter unit (numberFor Operation.bernoulliTrial.name x)
    | x :: salt :: _ => .give do
      return .int (← trial.bernoulliTrial (← numberFor Operation.bernoulliTrial.name x) salt)
  | .bernoulliFilter probability choices unit =>
    match values with
    | [] => .visit choices
    | [x] => .visitAfter probability (arrayFor Operation.bernoulliFilter.name x)
    | [_, y] => .visitAfter unit (numberFor Operation.bernoulliFilter.name y)
    | x :: y :: salt :: _ => .give do
      return .list (← trial.bernoulliFilter (← arrayFor Operation.bernoulliFilter.name x)
        (← numberFor Operation.bernoulliFilter.name y) salt)
  | .uniformChoice choices unit =>
    match values with
    | [] => .visit choices
    | [x] => .visitAfter unit (arrayFor Operation.uniformChoice.name x)
    | x :: salt :: _ => .give do
      trial.uniformChoice (← arrayFor Operation.uniformChoice.name x) salt
  | .weightedChoice choices weights unit =>
    match values with
    | [] => .visit choices
    | [x] => .visitAfter weights (arrayFor Operation.weightedChoice.name x)
    | [_, y] => .visitAfter unit (numbersFor Operation.weightedChoice.name y)
    | x :: y :: salt :: _ => .give do
      trial.weightedChoice (← arrayFor Operation.weightedChoice.name x)
        (← numbersFor Operation.weightedChoice.name y) salt
  | .sample choices draws unit =>
    if draws.isNull then
      match values with
      | [] => .visit choices
      | [x] => .visitAfter unit (arrayFor Operation.sample.name x)
      | x :: salt :: _ => .give do
        return .list (← trial.sample (← arrayFor Operation.sample.name x) none salt)
    else
      match values with
      | [] => .visit choices
      | [x] => .visitAfter draws (arrayFor Operation.sample.name x)
      | [_, y] => .visitAfter unit (numberFor Operation.sample.name y)
      | x :: y :: salt :: _ => .give do
        return .list (← trial.sample (← arrayFor Operation.sample.name x)
          (some (← numberFor Operation.sample.name y)) salt)
  | .index base key =>
    match values with
    | [] => .visit base
    | [_] => .visit key
    | x :: y :: _ => .give (partAt x y)
  | .includes collection item =>
    match values with
    | [] => .visit collection
    | [_] => .visit item
    | x :: y :: _ => .give do return .bool (← holdsItem x y)

/-- A node in progress with the values of the parts that it has visited. -/
structure Activation where
  node : Tree
  values : List Value

/-- What happens next: a node is entered, a value goes to the node around it, or all has stopped. -/
inductive Phase where
  | enter (tree : Tree)
  | handOver (value : Value)
  | stopped (fault : Fault)

/-- A moment of an evaluation: the nodes in progress, innermost first, and the trial so far. -/
structure Moment where
  phase : Phase
  active : List Activation
  trial : Trial

namespace Moment

/-- The moment after a node in progress has made a move. -/
def after (top : Activation) (outer : List Activation) (trial : Trial) : Move → Moment
  | .visit part => ⟨.enter part, top :: outer, trial⟩
  | .complete value effect => ⟨.handOver value, outer, effect.apply trial⟩
  | .stop fault => ⟨.stopped fault, [], trial⟩

/-- The next move of a node in progress, made. -/
def resume (top : Activation) (outer : List Activation) (trial : Trial) : Moment :=
  after top outer trial (top.node.move trial top.values)

/-- The next moment, until a value is left with no node around it or a fault has stopped all. -/
def next? : Moment → Option Moment
  | ⟨.enter tree, active, trial⟩ =>
    some (if trial.returned then ⟨.handOver .null, active, trial⟩
      else resume ⟨tree, []⟩ active trial)
  | ⟨.handOver value, top :: outer, trial⟩ =>
    some (resume ⟨top.node, top.values ++ [value]⟩ outer trial)
  | ⟨.handOver _, [], _⟩ | ⟨.stopped _, _, _⟩ => none

/-- The effect of the next step on the trial. -/
def effect : Moment → Effect
  | ⟨.enter tree, _, trial⟩ => if trial.returned then .none else (tree.move trial []).effect
  | ⟨.handOver value, top :: _, trial⟩ => (top.node.move trial (top.values ++ [value])).effect
  | _ => .none

/-- One moment leads to another in any number of steps. -/
def Leads : Moment → Moment → Prop :=
  Relation.ReflTransGen fun earlier later => earlier.next? = some later

/-- The first moment of the evaluation of a script. -/
def start (tree : Tree) (trial : Trial) : Moment :=
  ⟨.enter tree, [], trial⟩

/-- The moment at which an evaluation among nodes in progress has its outcome. -/
def outcome (active : List Activation) : Except Fault Value × Trial → Moment
  | (.ok value, trial) => ⟨.handOver value, active, trial⟩
  | (.error fault, trial) => ⟨.stopped fault, [], trial⟩

end Moment
end TrialScript
