import TrialScript.Proofs.Evaluation.Machine
import TrialScript.Proofs.Tree.Parts

/-! Going step by step through a script ends in the outcome that evaluating it has. -/

namespace TrialScript

namespace Moment

variable {top : Activation} {outer : List Activation} {trial : Trial} {α : Type}

/-- A script is stepped through as it is evaluated, among any nodes in progress. -/
def Follows (tree : Tree) : Prop :=
  ∀ active trial, Leads ⟨.enter tree, active, trial⟩ (outcome active ((evaluate tree).run trial))

/-- Visiting a part runs its evaluation and then goes on with its value. -/
theorem leads_visit {part : Tree} (follows : Follows part) {rest : Value → Run Value}
    (goesOn : ∀ value trial, Leads (resume ⟨top.node, top.values ++ [value]⟩ outer trial)
      (outcome outer ((rest value).run trial))) :
    Leads (after top outer trial (.visit part))
      (outcome outer ((evaluate part >>= rest).run trial)) := by
  -- The part is entered above the node, which goes on once it is handed the value.
  have visited := follows (top :: outer) trial
  rw [Stateful.run_bind]
  cases ran : (evaluate part).run trial with
  | mk result later =>
    rw [ran] at visited
    cases result with
    | ok value => exact visited.trans (.head rfl (goesOn value later))
    | error fault => exact visited

/-- A check that fails stops everything, and one that holds goes on with what it found. -/
theorem leads_check {result : Except Fault α} {next : α → Move} {rest : α → Run Value}
    (goesOn : ∀ found, result = .ok found →
      Leads (after top outer trial (next found)) (outcome outer ((rest found).run trial))) :
    Leads (after top outer trial (.check result next))
      (outcome outer ((liftM result >>= rest).run trial)) := by
  -- A check takes no step of its own, so both sides fail or go on at the same moment.
  rw [Stateful.run_bind]
  cases result with
  | ok found => exact goesOn found rfl
  | error fault => exact .refl

/-- A result completes a node without an effect. -/
theorem leads_give (result : Except Fault Value) :
    Leads (after top outer trial (.give result))
      (outcome outer ((liftM result : Run Value).run trial)) := by
  -- No step is needed: the moment after the move is the outcome.
  cases result <;> exact .refl

/-- Where some parts have no value yet, the first of them is visited. -/
theorem each_of_drop {parts rest : List Tree} {part : Tree} {values : List Value} {last : Move}
    (left : parts.drop values.length = part :: rest) :
    Move.each parts values last = .visit part := by
  -- The part to visit next stands right behind as many parts as there are values.
  have here : parts[values.length]? = some part := by
    rw [← List.head?_drop, left, List.head?_cons]
  simp only [Move.each, here]

/-- Where every part has a value, the last move follows. -/
theorem each_of_drop_nil {parts : List Tree} {values : List Value} {last : Move}
    (left : parts.drop values.length = []) : Move.each parts values last = last := by
  -- There are as many values as parts, so no part stands behind them.
  have past : parts[values.length]? = none := by
    rw [← List.head?_drop, left, List.head?_nil]
  simp only [Move.each, past]

/-- One more value leaves one part less to visit. -/
theorem drop_length_append {parts rest : List Tree} {part : Tree} {values : List Value}
    (value : Value) (left : parts.drop values.length = part :: rest) :
    parts.drop (values ++ [value]).length = rest := by
  -- Dropping one more takes away the head of what was left.
  rw [List.length_append, List.length_singleton, ← List.drop_drop, left, List.drop_one,
    List.tail_cons]

/-- A part without a value is one of the parts. -/
theorem mem_of_drop {parts rest : List Tree} {part : Tree} {count : Nat}
    (left : parts.drop count = part :: rest) : part ∈ parts :=
  List.mem_of_mem_drop (left ▸ List.mem_cons_self)

/-- Items are visited in order, and the values end up in a list. -/
theorem leads_items {items : List Tree} (follow : ∀ item ∈ items, Follows item) :
    ∀ (rest : List Tree) (values : List Value) (trial : Trial), items.drop values.length = rest →
      Leads (resume ⟨.array items, values⟩ outer trial)
        (outcome outer
          ((do return .list (values ++ (← evaluateItems rest)) : Run Value).run trial)) := by
  -- The induction is on the items that have no value yet.
  intro rest
  induction rest with
  | nil =>
    intro values trial left
    -- Every item has a value, so the list is complete.
    simp only [resume, Tree.move, each_of_drop_nil left, evaluateItems, pure_bind, List.append_nil]
    exact .refl
  | cons item rest ih =>
    intro values trial left
    simp only [resume, Tree.move, each_of_drop left, evaluateItems, bind_assoc, pure_bind]
    refine leads_visit (follow item (mem_of_drop left)) fun value trial => ?_
    have later := ih (values ++ [value]) trial (drop_length_append value left)
    simpa only [List.append_assoc, List.singleton_append] using later

/-- Steps are visited in order until the trial returns. -/
theorem leads_steps {steps : List Tree} (follow : ∀ step ∈ steps, Follows step) :
    ∀ (rest : List Tree) (values : List Value) (trial : Trial), steps.drop values.length = rest →
      Leads (resume ⟨.sequence steps, values⟩ outer trial)
        (outcome outer ((evaluateSteps (values.getLast?.getD .null) rest).run trial)) := by
  -- The induction is on the steps that have no value yet, and the latch is asked before each.
  intro rest
  induction rest with
  | nil =>
    intro values trial left
    -- With no step left, the latch makes no difference.
    simp only [resume, Tree.move, each_of_drop_nil left, ite_self, evaluateSteps]
    exact .refl
  | cons step rest ih =>
    intro values trial left
    simp only [resume, Tree.move, each_of_drop left, evaluateSteps, Stateful.run_bind,
      Stateful.run_get]
    by_cases returned : trial.returned = true
    · -- The steps behind a return are passed over on both sides.
      simp only [returned, if_true]
      exact .refl
    · simp only [if_neg returned]
      refine leads_visit (follow step (mem_of_drop left)) fun value trial => ?_
      have later := ih (values ++ [value]) trial (drop_length_append value left)
      simpa using later

/-- Operands of a fold are visited in order, and each must be a number. -/
theorem leads_numbers {op : FoldOp} {operands : List Tree}
    (follow : ∀ operand ∈ operands, Follows operand) :
    ∀ (rest : List Tree) (values : List Value) (found : List Number) (trial : Trial),
      operands.drop values.length = rest → values.mapM (numberFor op.name) = .ok found →
      Leads (resume ⟨.fold op operands, values⟩ outer trial)
        (outcome outer ((do
          let numbers ← evaluateNumbers op.name rest
          return .num (← op.apply (found ++ numbers)) : Run Value).run trial)) := by
  -- The induction is on the operands that have no value yet; those before them are numbers.
  intro rest
  induction rest with
  | nil =>
    intro values found trial left numeric
    simp only [resume, Tree.move, numeric, Move.check, each_of_drop_nil left, evaluateNumbers,
      pure_bind, List.append_nil]
    -- The operation itself may still refuse its operands.
    cases op.apply found <;> exact .refl
  | cons operand rest ih =>
    intro values found trial left numeric
    simp only [resume, Tree.move, numeric, Move.check, each_of_drop left, evaluateNumbers,
      bind_assoc, pure_bind]
    refine leads_visit (follow operand (mem_of_drop left)) fun value trial => ?_
    cases kind : numberFor op.name value with
    | error fault =>
      -- The check of all values so far fails at the new one.
      simp only [resume, Tree.move, List.mapM_append, numeric, List.mapM_cons, kind]
      exact .refl
    | ok number =>
      have extended : (values ++ [value]).mapM (numberFor op.name) = .ok (found ++ [number]) := by
        simp [List.mapM_append, numeric, kind]
        rfl
      have shorter := drop_length_append value left
      have later := ih (values ++ [value]) (found ++ [number]) trial shorter extended
      simpa only [Stateful.lift_ok, pure_bind, List.append_assoc, List.singleton_append] using later

/-- Operands are visited in order until one has the truth value that decides the connective. -/
theorem leads_settle {op : Connective} {decisive : Bool} {operands : List Tree}
    {settled : List Tree → Run Bool}
    (follow : ∀ operand ∈ operands, Follows operand)
    (moves : ∀ trial values,
      (Tree.connective op operands).move trial values = .settle decisive operands values)
    (settled_nil : settled [] = pure !decisive)
    (settled_cons : ∀ operand rest, settled (operand :: rest) = do
      if (← (← evaluate operand).truthy) = decisive then return decisive else settled rest) :
    ∀ (rest : List Tree) (values : List Value) (trial : Trial), operands.drop values.length = rest →
      (∀ value, values.getLast? = some value → value.truthy = .ok !decisive) →
      Leads (resume ⟨.connective op operands, values⟩ outer trial)
        (outcome outer ((do return .bool (← settled rest) : Run Value).run trial)) := by
  -- So far no operand has decided, so the next one is visited.
  have undecided : ∀ (values : List Value),
      (∀ value, values.getLast? = some value → value.truthy = .ok !decisive) →
      Move.settle decisive operands values =
        .each operands values (.complete (.bool !decisive) .none) := by
    intro values holds
    cases final : values.getLast? with
    | none => simp only [Move.settle, final]
    | some value => simp [Move.settle, final, holds value final, Move.check]
  intro rest
  induction rest with
  | nil =>
    intro values trial left holds
    -- No operand has decided, so the result is the other truth value.
    simp only [resume, moves, undecided values holds, each_of_drop_nil left, settled_nil, pure_bind]
    exact .refl
  | cons operand rest ih =>
    intro values trial left holds
    simp only [resume, moves, undecided values holds, each_of_drop left, settled_cons, bind_assoc]
    refine leads_visit (follow operand (mem_of_drop left)) fun value trial => ?_
    simp only [resume, moves, Move.settle, List.getLast?_concat]
    refine leads_check fun truth found => ?_
    by_cases decided : truth = decisive
    · -- The operands behind one that decides are not visited.
      simp only [if_pos decided, pure_bind]
      exact .refl
    · have opposite : truth = !decisive := by
        cases truth <;> cases decisive <;> simp_all
      have still : ∀ last, (values ++ [value]).getLast? = some last →
          last.truthy = .ok !decisive := by
        simp [found, opposite]
      have later := ih (values ++ [value]) trial (drop_length_append value left) still
      simp only [resume, moves, Move.settle, List.getLast?_concat, found, Move.check,
        if_neg decided] at later
      simpa only [if_neg decided] using later

/-- Guards are visited in order, and then the body behind the first that holds. -/
theorem leads_choose {clauses : List (Tree × Tree)}
    (follow : ∀ clause ∈ clauses, Follows clause.1 ∧ Follows clause.2) :
    ∀ (rest : List (Tree × Tree)) (values : List Value) (trial : Trial), rest ⊆ clauses →
      (∀ more, Move.choose clauses (values ++ more) = Move.choose rest more) →
      Leads (resume ⟨.cond clauses, values⟩ outer trial)
        (outcome outer ((evaluateClauses rest).run trial)) := by
  -- The values so far are those of guards that did not hold.
  intro rest
  induction rest with
  | nil =>
    intro values trial _ passed
    -- No guard has held, so the condition gives null.
    have here := passed []
    simp only [List.append_nil] at here
    simp only [resume, Tree.move, here, Move.choose, evaluateClauses]
    exact .refl
  | cons clause rest ih =>
    intro values trial inside passed
    obtain ⟨guard, body⟩ := clause
    have both := follow (guard, body) (inside List.mem_cons_self)
    -- Passing over the earlier clauses, the node asks the guard of this one.
    have here := passed []
    simp only [List.append_nil] at here
    simp only [resume, Tree.move, here, Move.choose, evaluateClauses]
    refine leads_visit both.1 fun value trial => ?_
    simp only [resume, Tree.move, passed, Move.choose]
    refine leads_check fun holds found => ?_
    by_cases held : holds = true
    · -- The body gives the value of the whole conditional.
      simp only [if_pos held]
      rw [← bind_pure (evaluate body)]
      refine leads_visit both.2 fun result trial => ?_
      simp only [resume, Tree.move, List.append_assoc, passed, Move.choose, List.singleton_append,
        found, Move.check, if_pos held]
      exact .refl
    · -- With the value of its guard this clause is passed over as well.
      have further : ∀ more,
          Move.choose clauses (values ++ [value] ++ more) = Move.choose rest more := by
        intro more
        simp only [List.append_assoc, passed, List.singleton_append, Move.choose, found, Move.check,
          if_neg held]
      have later := ih (values ++ [value]) trial (List.subset_of_cons_subset inside) further
      have start := further []
      simp only [List.append_nil] at start
      simp only [resume, Tree.move, start] at later
      simpa only [if_neg held] using later

/-- A draw that needs the trial completes a node without an effect. -/
theorem leads_draw {drawn : Except Fault Value} (draw : Trial → Except Fault α) (form : α → Value)
    (same : drawn = form <$> draw trial) :
    Leads (after top outer trial (.give drawn))
      (outcome outer ((do return form (← draw (← get)) : Run Value).run trial)) := by
  -- A draw reads the trial and leaves it as it is, whether it succeeds or not.
  rw [same]
  simp only [Stateful.run_bind, Stateful.run_get, Stateful.run_lift]
  cases draw trial <;> exact .refl

/-- Only what a script does before the trial has returned is left to show. -/
theorem follows_of_running {tree : Tree}
    (leads : ∀ outer trial, trial.returned = false →
      Leads (resume ⟨tree, []⟩ outer trial)
        (outcome outer ((evaluate tree).run trial))) : Follows tree := by
  intro active trial
  refine .head rfl ?_
  -- After a return both sides give null, and before it the node makes its first move.
  by_cases returned : trial.returned = true
  · rw [evaluate_of_returned tree returned, if_pos returned]
    exact .refl
  · rw [if_neg returned]
    exact leads active trial (by simpa using returned)

/-- A condition is stepped through as it is evaluated. -/
theorem follows_cond {clauses : List (Tree × Tree)}
    (follow : ∀ clause ∈ clauses, Follows clause.1 ∧ Follows clause.2) :
    Follows (.cond clauses) := by
  -- No guard has a value yet, so choosing starts with the first clause.
  refine follows_of_running fun outer trial running => ?_
  simp only [evaluate, run_unlessReturned running]
  exact leads_choose follow clauses [] trial (List.Subset.refl clauses) fun _ => rfl

/-- A connective is stepped through as it is evaluated. -/
theorem follows_connective {op : Connective} {operands : List Tree}
    (follow : ∀ operand ∈ operands, Follows operand) : Follows (.connective op operands) := by
  refine follows_of_running fun outer trial running => ?_
  -- Both connectives settle, each with the truth value that decides it.
  cases op with
  | all =>
    simp only [evaluate, run_unlessReturned running]
    refine leads_settle follow (fun _ _ => rfl) rfl (fun operand rest => ?_) operands [] trial rfl
      (by simp)
    -- Falsehood decides, so the two ways to go on stand the other way around.
    rw [evaluateAll]
    refine bind_congr fun value => bind_congr fun holds => ?_
    cases holds <;> rfl
  | any =>
    simp only [evaluate, run_unlessReturned running]
    refine leads_settle follow (fun _ _ => rfl) rfl (fun operand rest => ?_) operands [] trial rfl
      (by simp)
    simp [evaluateAny]

/-- An operation on one operand is stepped through as it is evaluated. -/
theorem follows_unary {op : UnaryOp} {operand : Tree} (part : Follows operand) :
    Follows (.unary op operand) := by
  refine follows_of_running fun outer trial running => ?_
  cases op with
  | finish =>
    simp only [evaluate, run_unlessReturned running]
    refine leads_visit part fun value trial => ?_
    -- Exactly the truth value false has a further effect.
    by_cases refused : value = .bool false <;>
      simp [resume, Tree.move, after, Effect.apply, refused, Stateful.run_bind, outcome] <;>
        exact .refl
  | _ =>
    -- The other operations only give a result.
    simp only [evaluate, run_unlessReturned running]
    exact leads_visit part fun _ _ => leads_give _

section Draws

variable {choices probability weights draws unit : Tree}

/-- A draw between bounds is stepped through as it is evaluated. -/
theorem follows_randomRange {kind : RangeKind} {low high : Tree} (first : Follows low)
    (second : Follows high) (last : Follows unit) : Follows (.randomRange kind low high unit) := by
  -- Both bounds are demanded as numbers before the next part is visited.
  refine follows_of_running fun outer trial running => ?_
  simp only [evaluate, run_unlessReturned running]
  refine leads_visit first fun x trial => leads_check fun m isNumber => ?_
  refine leads_visit second fun y trial => leads_check fun n isNumber' => ?_
  refine leads_visit last fun salt trial => ?_
  refine leads_draw (fun trial => kind.draw trial m n salt) .num ?_
  simp [isNumber, isNumber']
  rfl

/-- A trial with a probability is stepped through as it is evaluated. -/
theorem follows_bernoulliTrial (first : Follows probability) (last : Follows unit) :
    Follows (.bernoulliTrial probability unit) := by
  -- The probability is demanded as a number before the unit is visited.
  refine follows_of_running fun outer trial running => ?_
  simp only [evaluate, run_unlessReturned running]
  refine leads_visit first fun x trial => leads_check fun m isNumber => ?_
  refine leads_visit last fun salt trial => ?_
  refine leads_draw (fun trial => trial.bernoulliTrial m salt) .int ?_
  simp [isNumber]
  rfl

/-- A filter with a probability is stepped through as it is evaluated. -/
theorem follows_bernoulliFilter (first : Follows choices) (second : Follows probability)
    (last : Follows unit) : Follows (.bernoulliFilter probability choices unit) := by
  -- The choices are demanded as a list first, although they are written second.
  refine follows_of_running fun outer trial running => ?_
  simp only [evaluate, run_unlessReturned running]
  refine leads_visit first fun x trial => leads_check fun items isArray => ?_
  refine leads_visit second fun y trial => leads_check fun p isNumber => ?_
  refine leads_visit last fun salt trial => ?_
  refine leads_draw (fun trial => trial.bernoulliFilter items p salt) .list ?_
  simp [isArray, isNumber]
  rfl

/-- A uniform choice is stepped through as it is evaluated. -/
theorem follows_uniformChoice (first : Follows choices) (last : Follows unit) :
    Follows (.uniformChoice choices unit) := by
  -- The draw itself gives the value, so there is nothing to wrap it in.
  refine follows_of_running fun outer trial running => ?_
  simp only [evaluate, run_unlessReturned running]
  refine leads_visit first fun x trial => leads_check fun items isArray => ?_
  refine leads_visit last fun salt trial => ?_
  rw [← bind_pure (get >>= _), bind_assoc]
  refine leads_draw (fun trial => trial.uniformChoice items salt) id ?_
  simp [isArray]
  rfl

/-- A weighted choice is stepped through as it is evaluated. -/
theorem follows_weightedChoice (first : Follows choices) (second : Follows weights)
    (last : Follows unit) : Follows (.weightedChoice choices weights unit) := by
  -- The draw itself gives the value, so there is nothing to wrap it in.
  refine follows_of_running fun outer trial running => ?_
  simp only [evaluate, run_unlessReturned running]
  refine leads_visit first fun x trial => leads_check fun items isArray => ?_
  refine leads_visit second fun y trial => leads_check fun numbers areNumbers => ?_
  refine leads_visit last fun salt trial => ?_
  rw [← bind_pure (get >>= _), bind_assoc]
  refine leads_draw (fun trial => trial.weightedChoice items numbers salt) id ?_
  simp [isArray, areNumbers]
  rfl

/-- A sample is stepped through as it is evaluated. -/
theorem follows_sample (first : Follows choices) (second : Follows draws) (last : Follows unit) :
    Follows (.sample choices draws unit) := by
  refine follows_of_running fun outer trial running => ?_
  simp only [evaluate, run_unlessReturned running]
  by_cases everything : draws.isNull = true
  · -- Without a number of draws there is one part less to visit.
    simp only [resume, Tree.move, if_pos everything]
    refine leads_visit first fun x trial => ?_
    simp only [resume, Tree.move, if_pos everything]
    refine leads_check fun items isArray => ?_
    refine leads_visit last fun salt trial => ?_
    simp only [resume, Tree.move, if_pos everything]
    refine leads_draw (fun trial => trial.sample items none salt) .list ?_
    simp [isArray]
    rfl
  · -- The number of draws is demanded between the choices and the unit.
    simp only [resume, Tree.move, if_neg everything]
    refine leads_visit first fun x trial => ?_
    simp only [resume, Tree.move, if_neg everything]
    refine leads_check fun items isArray => ?_
    simp only [bind_map_left]
    refine leads_visit second fun y trial => ?_
    simp only [resume, Tree.move, if_neg everything]
    refine leads_check fun count isNumber => ?_
    refine leads_visit last fun salt trial => ?_
    simp only [resume, Tree.move, if_neg everything]
    refine leads_draw (fun trial => trial.sample items (some count) salt) .list ?_
    simp [isArray, isNumber]
    rfl

end Draws

/-- Every script is stepped through as it is evaluated. -/
theorem follows (tree : Tree) : Follows tree := by
  -- The induction is over the parts: each node goes through its own in the order of evaluation.
  induction tree using Tree.induction_parts with
  | step tree ih =>
  cases tree with
  | scalar | literal | lookup =>
    -- These have no parts, so their first move completes them.
    refine follows_of_running fun outer trial running => ?_
    simp only [evaluate, run_unlessReturned running]
    exact .refl
  | array items =>
    refine follows_of_running fun outer trial running => ?_
    simp only [evaluate, run_unlessReturned running]
    exact leads_items ih items [] trial rfl
  | assign name value =>
    refine follows_of_running fun outer trial running => ?_
    simp only [evaluate, run_unlessReturned running]
    exact leads_visit (ih value (by simp [Tree.parts])) fun _ _ => .refl
  | sequence steps =>
    refine follows_of_running fun outer trial running => ?_
    simp only [evaluate, run_unlessReturned running]
    exact leads_steps ih steps [] trial rfl
  | cond clauses =>
    refine follows_cond fun clause member => ⟨ih _ ?_, ih _ ?_⟩
    all_goals exact List.mem_flatMap.mpr ⟨clause, member, by simp⟩
  | binary op left right =>
    -- The left value is checked before the right part is visited.
    refine follows_of_running fun outer trial running => ?_
    simp only [evaluate, run_unlessReturned running]
    refine leads_visit (ih left (by simp [Tree.parts])) fun x trial => leads_check fun _ _ => ?_
    exact leads_visit (ih right (by simp [Tree.parts])) fun y trial => leads_give _
  | connective op operands => exact follows_connective ih
  | fold op operands =>
    refine follows_of_running fun outer trial running => ?_
    simp only [evaluate, run_unlessReturned running]
    exact leads_numbers ih operands [] [] trial rfl rfl
  | unary op operand => exact follows_unary (ih operand (by simp [Tree.parts]))
  | index base key =>
    refine follows_of_running fun outer trial running => ?_
    simp only [evaluate, run_unlessReturned running]
    refine leads_visit (ih base (by simp [Tree.parts])) fun x trial => ?_
    exact leads_visit (ih key (by simp [Tree.parts])) fun y trial => leads_give _
  | includes collection item =>
    refine follows_of_running fun outer trial running => ?_
    simp only [evaluate, run_unlessReturned running]
    refine leads_visit (ih collection (by simp [Tree.parts])) fun x trial => ?_
    refine leads_visit (ih item (by simp [Tree.parts])) fun y trial => ?_
    exact leads_draw (fun _ => holdsItem x y) .bool rfl
  | randomRange kind low high unit =>
    exact follows_randomRange (ih low (by simp [Tree.parts])) (ih high (by simp [Tree.parts]))
      (ih unit (by simp [Tree.parts]))
  | bernoulliTrial probability unit =>
    exact follows_bernoulliTrial (ih probability (by simp [Tree.parts]))
      (ih unit (by simp [Tree.parts]))
  | bernoulliFilter probability choices unit =>
    exact follows_bernoulliFilter (ih choices (by simp [Tree.parts]))
      (ih probability (by simp [Tree.parts]))
      (ih unit (by simp [Tree.parts]))
  | uniformChoice choices unit =>
    exact follows_uniformChoice (ih choices (by simp [Tree.parts])) (ih unit (by simp [Tree.parts]))
  | weightedChoice choices weights unit =>
    exact follows_weightedChoice (ih choices (by simp [Tree.parts]))
      (ih weights (by simp [Tree.parts]))
      (ih unit (by simp [Tree.parts]))
  | sample choices draws unit =>
    exact follows_sample (ih choices (by simp [Tree.parts])) (ih draws (by simp [Tree.parts]))
      (ih unit (by simp [Tree.parts]))

end Moment
end TrialScript
