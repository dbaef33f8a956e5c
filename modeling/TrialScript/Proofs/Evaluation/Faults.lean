import TrialScript.Proofs.Evaluation.Latch
import TrialScript.Proofs.Evaluation.Positions
import TrialScript.Proofs.Faults

/-! Faults of an evaluation: of operands, arguments, arithmetic, and moments without an order. -/

namespace TrialScript

/-- Which kinds can be ordered does not depend on which value comes first. -/
theorem Value.comparable_symm {x y : Value} (admitted : x.comparable y = true) :
    y.comparable x = true := by
  -- Texts, days and moments are told apart by shape, and for numbers the two tests change places.
  unfold comparable at admitted
  split at admitted
  · rfl
  · rfl
  · rfl
  · next noTexts noDays noMoments =>
    rw [Bool.and_comm] at admitted
    unfold comparable
    split <;> first | rfl | exact admitted

/-- Values of ordered kinds have an order, unless they are moments of which only one has a zone. -/
theorem Value.before?_eq_none_iff {x y : Value} (admitted : x.comparable y = true) :
    x.before? y = none ↔ ∃ first second : DateTime, x = .datetime first ∧ y = .datetime second ∧
      first.zone.isSome ≠ second.zone.isSome := by
  -- Texts and days have their own order, and the others count as numbers.
  unfold comparable at admitted
  split at admitted
  · simp [before?]
  · simp [before?]
  · next first second =>
    rw [before?, ← Option.not_isSome_iff_eq_none, DateTime.isSome_before?]
    simp
  · next noTexts noDays noMoments =>
    rw [Bool.and_eq_true] at admitted
    obtain ⟨p, counts⟩ := Option.isSome_iff_exists.mp admitted.1
    obtain ⟨q, counts'⟩ := Option.isSome_iff_exists.mp admitted.2
    rw [before?_of_left counts, counts']
    simp only [Option.map_some, reduceCtorEq, false_iff, not_exists]
    rintro first second ⟨same, same', -⟩
    exact noMoments first second same same'

/-- Comparing moments of which only one has a zone stops, whichever of them comes first. -/
theorem Comparison.holds_of_zones {first second : DateTime} (op : Comparison)
    (apart : first.zone.isSome ≠ second.zone.isSome) :
    op.holds (.datetime first) (.datetime second) = .error .wrongKind := by
  -- There is no order in either direction, and every comparison looks in one of them.
  have forward : (Value.datetime first).before? (.datetime second) = none :=
    (Value.before?_eq_none_iff rfl).mpr ⟨first, second, rfl, rfl, apart⟩
  have backward : (Value.datetime second).before? (.datetime first) = none :=
    (Value.before?_eq_none_iff rfl).mpr ⟨second, first, rfl, rfl, apart.symm⟩
  cases op <;> simp only [holds, forward, backward] <;> rfl

namespace FailsOnly

variable {operation : String} {operand : Value}

/-- Demanding a number. -/
theorem numberFor : FailsOnly runFaults (numberFor operation operand) := by
  -- A value is a number, or a fault of its own says that it is none.
  unfold TrialScript.numberFor
  split
  · exact .ok _
  · exact .error (by simp [Fault.kind, runFaults])

/-- Demanding a list. -/
theorem arrayFor : FailsOnly runFaults (arrayFor operation operand) := by
  -- A value is a list, or a fault of its own says that it is none.
  unfold TrialScript.arrayFor
  split
  · exact .ok _
  · exact .error (by simp [Fault.kind, runFaults])

/-- Demanding a list of numbers. -/
theorem numbersFor : FailsOnly runFaults (numbersFor operation operand) := by
  -- The list is demanded first, and then that all of its items are numbers.
  refine .bind arrayFor fun items => ?_
  split
  · exact .ok _
  · exact .error (by simp [Fault.kind, runFaults])

/-- Whether a value holds is defined for every value, unless it is a number that is too large. -/
theorem valueTruthy {value : Value} : FailsOnly runFaults value.truthy := by
  unfold Value.truthy
  split
  all_goals first | exact .ok _ | exact numeric truthy

/-- Comparing two values of ordered kinds that have an order. -/
theorem comparisonHolds {op : Comparison} {left right : Value}
    (forward : left.before? right ≠ none) (backward : right.before? left ≠ none) :
    FailsOnly runFaults (op.holds left right) := by
  obtain ⟨strictly, before⟩ := Option.ne_none_iff_exists'.mp forward
  obtain ⟨strictly', after⟩ := Option.ne_none_iff_exists'.mp backward
  cases op <;> simp only [Comparison.holds, before, after] <;> exact .ok _

/-- Two values are compared or calculated with, unless they are moments without an order. -/
theorem binaryApply {op : BinaryOp} {left right : Value}
    (calm : ∀ comparison, op = .order comparison → ∀ first second : DateTime,
      left = .datetime first → right = .datetime second →
        first.zone.isSome = second.zone.isSome) :
    FailsOnly runFaults (op.apply left right) := by
  -- Any two values can be equal or not; the other operations look at the kinds of both.
  cases op with
  | equals => exact .ok _
  | order op =>
    simp only [BinaryOp.apply]
    split
    · next admitted =>
      -- Kinds that can be ordered can be so either way around, and both orders may be asked for.
      have admitted' : right.comparable left = true := Value.comparable_symm admitted
      refine .bind (comparisonHolds (fun none => ?_) fun none => ?_) fun _ => .ok _
      · obtain ⟨first, second, same, same', apart⟩ :=
          (Value.before?_eq_none_iff admitted).mp none
        exact apart (calm op rfl first second same same')
      · obtain ⟨second, first, same', same, apart⟩ :=
          (Value.before?_eq_none_iff admitted').mp none
        exact apart (calm op rfl first second same same').symm
    · exact .error (by simp [Fault.kind, runFaults])
  -- Everything that is calculated with is demanded to be a number.
  | calculate op =>
    refine .bind numberFor fun x => .bind numberFor fun y => ?_
    exact .bind (numeric arithmetic) fun _ => .ok _

/-- A fold of no number at all has a fault of its own where there is no number to start from. -/
theorem foldApply {op : FoldOp} {numbers : List Number} :
    FailsOnly runFaults (op.apply numbers) := by
  -- The steps of a fold are arithmetic, and without operands there may be no start.
  have steps : ∀ (start : Number) (rest : List Number),
      FailsOnly runFaults (rest.foldlM op.function.apply start) := fun start rest =>
    .foldlM (fun total number => numeric arithmetic) start
  unfold FoldOp.apply
  split
  · exact steps _ _
  · exact steps _ _
  · exact steps _ _
  · exact .error (by simp [Fault.kind, runFaults])

/-- Operations of one operand. -/
theorem unaryApply {op : UnaryOp} : FailsOnly runFaults (op.apply operand) := by
  -- Returning takes any value, and the others demand a truth value, a number or a list.
  cases op with
  | finish => exact .ok _
  | not => exact .bind valueTruthy fun _ => .ok _
  | round => exact .bind numberFor fun _ => .bind (numeric roundHalfAway) fun _ => .ok _
  | negate => exact .bind numberFor fun _ => .ok _
  | length => exact .bind arrayFor fun _ => .ok _

/-- Looking up a part, which is null if it is not there. -/
theorem partAt {base key : Value} : FailsOnly runFaults (partAt base key) := by
  -- The split is on lists, mappings and everything else.
  unfold TrialScript.partAt
  split
  · split
    · rw [itemAt_eq]
      exact .ok _
    · exact .error (by simp [Fault.kind, runFaults])
  · split
    · exact .ok _
    · exact .error (by simp [Fault.kind, runFaults])
  · exact .error (by simp [Fault.kind, runFaults])

/-- Asking for an item of a list or a part of a text. -/
theorem holdsItem {collection item : Value} : FailsOnly runFaults (holdsItem collection item) := by
  -- A list or a text is searched, and nothing else.
  unfold TrialScript.holdsItem
  split
  · exact .ok _
  · exact .error (by simp [Fault.kind, runFaults])

/-- Drawing a number of either kind between bounds. -/
theorem rangeDraw {trial : Trial} {low high : Number} {unit : Value} {kind : RangeKind} :
    FailsOnly runFaults (kind.draw trial low high unit) := by
  cases kind with
  | integer => exact integerBetween
  | float => exact floatBetween

end FailsOnly

namespace Move

variable {α : Type}

/-- A move stops with no other faults than those of running a script. -/
def StopsWell : Move → Prop
  | .stop fault => fault.kind ∈ runFaults
  | _ => True

/-- A check stops well if it fails well and everything that may follow it stops well. -/
theorem stopsWell_check {result : Except Fault α} {next : α → Move}
    (checked : FailsOnly runFaults result) (onward : ∀ found, (next found).StopsWell) :
    (check result next).StopsWell := by
  cases result with
  | ok found => exact onward found
  | error fault => exact checked fault rfl

/-- A move that gives a checked value stops well if the check does. -/
theorem stopsWell_give {result : Except Fault Value} (checked : FailsOnly runFaults result) :
    (give result).StopsWell :=
  stopsWell_check checked fun _ => trivial

/-- A move that visits a part after a check stops well if the check does. -/
theorem stopsWell_visitAfter {part : Tree} {checked : Except Fault α}
    (holds : FailsOnly runFaults checked) : (visitAfter part checked).StopsWell :=
  stopsWell_check holds fun _ => trivial

/-- Going through parts stops well if what comes after them does. -/
theorem stopsWell_each {parts : List Tree} {values : List Value} {last : Move}
    (onward : last.StopsWell) : (each parts values last).StopsWell := by
  -- A part that is left is visited, which stops nothing.
  unfold each
  split
  · trivial
  · exact onward

/-- Asking operands one by one until one decides stops well. -/
theorem stopsWell_settle (decisive : Bool) (operands : List Tree) (values : List Value) :
    (settle decisive operands values).StopsWell := by
  -- The last value decides, or else the next operand is visited.
  unfold settle
  split
  · exact stopsWell_each trivial
  · refine stopsWell_check .valueTruthy fun holds => ?_
    split
    · trivial
    · exact stopsWell_each trivial

/-- Looking for the first guard that holds stops well. -/
theorem stopsWell_choose (clauses : List (Tree × Tree)) (values : List Value) :
    (choose clauses values).StopsWell := by
  -- The induction is on the clauses, of which those that did not hold are passed over.
  induction clauses generalizing values with
  | nil => trivial
  | cons clause rest ih =>
    cases values with
    | nil => trivial
    | cons value values =>
      refine stopsWell_check .valueTruthy fun holds => ?_
      split
      · cases values <;> trivial
      · exact ih values

end Move

/-- The nodes and values of which a comparison of moments with and without a zone is made. -/
inductive Tree.Clashes : Tree → List Value → Prop where
  | order (op : Comparison) (left right : Tree) {first second : DateTime} (others : List Value)
    (apart : first.zone.isSome ≠ second.zone.isSome) :
    Clashes (.binary (.order op) left right) (.datetime first :: .datetime second :: others)

/-- A comparison of moments with and without a zone stops. -/
theorem Tree.move_of_clashes {tree : Tree} {values : List Value} (clash : tree.Clashes values)
    (trial : Trial) : tree.move trial values = .stop .wrongKind := by
  -- Both moments pass the check for kinds, and then have no order.
  cases clash with
  | @order op left right first second others apart =>
    have stops : (BinaryOp.order op).apply (.datetime first) (.datetime second) =
        .error .wrongKind := by
      have admitted : (Value.datetime first).comparable (.datetime second) = true := rfl
      rw [BinaryOp.apply, if_pos admitted, op.holds_of_zones apart]
      rfl
    simp only [move, stops]
    rfl

/-- Every other node stops well, whatever values its parts have given and whatever the trial is. -/
theorem Tree.stopsWell_move {tree : Tree} {values : List Value} (calm : ¬ tree.Clashes values)
    (trial : Trial) : (tree.move trial values).StopsWell := by
  -- Each node visits its parts, with a check in between, and in the end gives its result.
  cases tree with
  | scalar | literal | lookup => trivial
  | array items => exact Move.stopsWell_each trivial
  | assign name value => simp only [move]; split <;> trivial
  | sequence steps =>
    simp only [move]
    split
    · trivial
    · exact Move.stopsWell_each trivial
  | cond clauses => exact Move.stopsWell_choose clauses values
  -- A comparison is made once both sides have given a value, which the two must not clash in.
  | binary op left right =>
    simp only [move]
    split
    · trivial
    · refine Move.stopsWell_visitAfter ?_
      cases op with
      | calculate op => exact .map _ .numberFor
      | _ => exact .ok _
    · next x y others =>
      refine Move.stopsWell_give (.binaryApply ?_)
      rintro comparison rfl first second rfl rfl
      by_contra apart
      exact calm (.order comparison left right others apart)
  | connective op operands => cases op <;> exact Move.stopsWell_settle _ _ _
  -- All values so far are checked before the next operand is visited.
  | fold op operands =>
    refine Move.stopsWell_check (.mapM fun _ _ => .numberFor) fun _ => ?_
    exact Move.stopsWell_each (Move.stopsWell_give (.map _ .foldApply))
  | unary op operand =>
    cases op <;> simp only [move] <;> split <;>
      first | trivial | exact Move.stopsWell_give .unaryApply
  | index base key =>
    simp only [move]
    split
    · trivial
    · trivial
    · exact Move.stopsWell_give .partAt
  | includes collection item =>
    simp only [move]
    split
    · trivial
    · trivial
    · exact Move.stopsWell_give (.bind .holdsItem fun _ => .ok _)
  -- Bounds are demanded in turn, and drawing between them has the faults of the draws.
  | randomRange kind low high unit =>
    simp only [move]
    split
    · trivial
    · exact Move.stopsWell_visitAfter .numberFor
    · exact Move.stopsWell_visitAfter .numberFor
    · exact Move.stopsWell_give
        (.bind .numberFor fun _ => .bind .numberFor fun _ => .bind .rangeDraw fun _ => .ok _)
  | bernoulliTrial probability unit =>
    simp only [move]
    split
    · trivial
    · exact Move.stopsWell_visitAfter .numberFor
    · exact Move.stopsWell_give
        (.bind .numberFor fun _ => .bind .bernoulliTrial fun _ => .ok _)
  -- The probability is visited after the choices, and the unit last.
  | bernoulliFilter probability choices unit =>
    simp only [move]
    split
    · trivial
    · exact Move.stopsWell_visitAfter .arrayFor
    · exact Move.stopsWell_visitAfter .numberFor
    · exact Move.stopsWell_give
        (.bind .arrayFor fun _ => .bind .numberFor fun _ => .bind .bernoulliFilter fun _ => .ok _)
  | uniformChoice choices unit =>
    simp only [move]
    split
    · trivial
    · exact Move.stopsWell_visitAfter .arrayFor
    · exact Move.stopsWell_give (.bind .arrayFor fun _ => .uniformChoice)
  | weightedChoice choices weights unit =>
    simp only [move]
    split
    · trivial
    · exact Move.stopsWell_visitAfter .arrayFor
    · exact Move.stopsWell_visitAfter .numbersFor
    · exact Move.stopsWell_give
        (.bind .arrayFor fun _ => .bind .numbersFor fun _ => .weightedChoice)
  -- A sample with a number of draws visits one part more.
  | sample choices draws unit =>
    simp only [move]
    split
    · split
      · trivial
      · exact Move.stopsWell_visitAfter .arrayFor
      · exact Move.stopsWell_give (.bind .arrayFor fun _ => .bind .sample fun _ => .ok _)
    · split
      · trivial
      · exact Move.stopsWell_visitAfter .arrayFor
      · exact Move.stopsWell_visitAfter .numberFor
      · exact Move.stopsWell_give
          (.bind .arrayFor fun _ => .bind .numberFor fun _ => .bind .sample fun _ => .ok _)

namespace Moment

/-- Every node in progress waits for the value of a part that it has visited. -/
def Waiting (moment : Moment) : Prop :=
  ∀ activation ∈ moment.active, ∃ trial part,
    activation.node.move trial activation.values = .visit part

/-- A node stays in progress by visiting a part. -/
theorem waiting_resume {top : Activation} {outer : List Activation} {trial : Trial}
    (around : ∀ activation ∈ outer, ∃ trial part,
      activation.node.move trial activation.values = .visit part) :
    Waiting (resume top outer trial) := by
  -- The move of the node on top decides: it visits, is done, or stops everything.
  rw [resume]
  cases move : top.node.move trial top.values with
  | visit part => exact List.forall_mem_cons.mpr ⟨⟨trial, part, move⟩, around⟩
  | complete value effect => exact around
  | stop fault => exact List.forall_mem_nil _

/-- Every step keeps the nodes in progress waiting. -/
theorem waiting_next? {moment later : Moment} (waiting : Waiting moment)
    (step : moment.next? = some later) : Waiting later := by
  -- A node is entered on top of the waiting ones, and a value is handed to the innermost of them.
  obtain ⟨phase, active, trial⟩ := moment
  cases phase with
  | enter part =>
    cases step
    split
    · exact waiting
    · exact waiting_resume waiting
  | handOver value =>
    cases active with
    | nil => cases step
    | cons top outer =>
      cases step
      exact waiting_resume (List.forall_mem_cons.mp waiting).2
  | stopped fault => cases step

/-- At every moment of an evaluation the nodes in progress wait. -/
theorem waiting_of_leads {tree : Tree} {trial : Trial} {moment : Moment}
    (reached : Leads (start tree trial) moment) : Waiting moment := by
  -- No node is in progress at the start.
  induction reached with
  | refl => exact List.forall_mem_nil _
  | tail _ step ih => exact waiting_next? ih step

/-- A comparison is about to be made of moments of which only one has a zone. -/
def Clashes (moment : Moment) : Prop :=
  ∃ op left right first second outer, moment.phase = .handOver (.datetime second) ∧
    moment.active = ⟨.binary (.order op) left right, [.datetime first]⟩ :: outer ∧
    first.zone.isSome ≠ second.zone.isSome

/-- A waiting comparison that clashes with the value that it is handed has one value so far. -/
theorem clashes_of_handOver {top : Activation} {outer : List Activation} {trial earlier : Trial}
    {part : Tree} {value : Value} (waits : top.node.move earlier top.values = .visit part)
    (clash : top.node.Clashes (top.values ++ [value])) :
    Clashes ⟨.handOver value, top :: outer, trial⟩ := by
  obtain ⟨node, values⟩ := top
  simp only at waits clash
  generalize joined : values ++ [value] = all at clash
  cases clash with
  | @order op left right first second others apart =>
    -- With no value there is only one now, and with two the comparison would have been made.
    match values with
    | [] => cases joined
    | [x] =>
      cases joined
      exact ⟨op, left, right, first, second, outer, rfl, rfl, apart⟩
    | x :: y :: rest =>
      simp only [Tree.move, Move.give, Move.check] at waits
      split at waits <;> cases waits

/-- A step stops everything with a fault of running a script, or because of a clash. -/
theorem stopsWell_of_next? {moment later : Moment} {fault : Fault} (waiting : Waiting moment)
    (step : moment.next? = some later) (stopped : later.phase = .stopped fault) :
    fault.kind ∈ runFaults ∨ moment.Clashes := by
  -- Only the move of a node can stop the evaluation.
  have made : ∀ top outer trial, ¬ top.node.Clashes top.values →
      (resume top outer trial).phase = .stopped fault → fault.kind ∈ runFaults := by
    intro top outer trial calm stopped
    have well := Tree.stopsWell_move calm trial
    rw [resume] at stopped
    cases move : top.node.move trial top.values with
    | stop found =>
      rw [move] at stopped well
      cases stopped
      exact well
    | visit | complete =>
      rw [move] at stopped
      cases stopped
  obtain ⟨phase, active, trial⟩ := moment
  cases phase with
  | enter tree =>
    cases step
    split at stopped
    · cases stopped
    · -- A node that has just been entered has no values that could clash.
      refine .inl (made _ _ _ ?_ stopped)
      rintro ⟨⟩
  | handOver value =>
    cases active with
    | nil => cases step
    | cons top outer =>
      cases step
      obtain ⟨earlier, part, waits⟩ := waiting top List.mem_cons_self
      by_cases clash : top.node.Clashes (top.values ++ [value])
      · exact .inr (clashes_of_handOver waits clash)
      · exact .inl (made _ _ _ clash stopped)
  | stopped fault => cases step

/-- A clash stops everything at the next step. -/
theorem next?_of_clashes {moment : Moment} (clash : moment.Clashes) :
    moment.next? = some ⟨.stopped .wrongKind, [], moment.trial⟩ := by
  -- The comparison is on top and has its first value, so the second one makes it move.
  obtain ⟨phase, active, trial⟩ := moment
  obtain ⟨op, left, right, first, second, outer, rfl, rfl, apart⟩ := clash
  have stops := Tree.move_of_clashes (.order op left right [] apart) trial
  simp only [next?, resume, List.singleton_append, stops]
  rfl

end Moment

/-- An evaluation that stops does so with a fault of running a script, or because of a clash. -/
theorem fault_of_evaluate {tree : Tree} {trial : Trial} {fault : Fault}
    (failed : ((evaluate tree).run trial).1 = .error fault) :
    fault.kind ∈ runFaults ∨ ∃ moment, Moment.Leads (.start tree trial) moment ∧ moment.Clashes := by
  -- Going through the script step by step ends in the same fault.
  have reached := Moment.follows tree [] trial
  cases ran : (evaluate tree).run trial with
  | mk outcome later =>
    rw [ran] at reached failed
    cases failed
    -- The first moment is not stopped, so the last step is what stopped the evaluation.
    rcases Relation.ReflTransGen.cases_tail reached with same | ⟨before, onPath, step⟩
    · cases same
    · rcases Moment.stopsWell_of_next? (Moment.waiting_of_leads onPath) step rfl with kind | clash
      · exact .inl kind
      · exact .inr ⟨before, onPath, clash⟩

/-- A comparison of moments of which only one has a zone stops the evaluation that it is part of. -/
theorem evaluate_of_clashes {tree : Tree} {trial : Trial} {moment : Moment}
    (reached : Moment.Leads (.start tree trial) moment) (clash : moment.Clashes) :
    ((evaluate tree).run trial).1 = .error .wrongKind := by
  -- Nothing follows the stop, so the outcome is reached there.
  have onward := Moment.leads_outcome (reached.tail (Moment.next?_of_clashes clash))
  rcases onward.cases_head with same | ⟨other, step, -⟩
  · cases ran : (evaluate tree).run trial with
    | mk outcome later =>
      rw [ran] at same
      cases outcome with
      | ok value => cases same
      | error fault =>
        cases same
        rfl
  · cases step

/-- Evaluating a script has no other faults than those of running scripts and that of a clash. -/
theorem FailsOnly.evaluate (tree : Tree) (trial : Trial) :
    FailsOnly (.wrongKind :: runFaults) ((evaluate tree).run trial).1 := by
  -- The kinds are those of a stop that is no clash, with that of a clash in front.
  intro fault failed
  rcases fault_of_evaluate failed with kind | ⟨moment, reached, clash⟩
  · exact List.mem_cons_of_mem _ kind
  · rw [evaluate_of_clashes reached clash] at failed
    cases failed
    exact List.mem_cons_self

/--
Evaluating any script in any trial gives a value or stops with one of four kinds of faults.

The only other fault is that of comparing moments of which one has a zone and the other has none:
any two moments pass the check for values that can be compared. A division by zero, a position
outside a list, and every other fault is never come to.
-/
theorem evaluate_stops_exactly (tree : Tree) (trial : Trial) :
    ((∃ value, ((evaluate tree).run trial).1 = .ok value) ∨
      ∃ fault, ((evaluate tree).run trial).1 = .error fault ∧
        (fault.kind ∈ [.typeMismatch, .invalidArgument, .overflow, .undefinedValue] ∨
          fault = .wrongKind)) ∧
    (((evaluate tree).run trial).1 = .error .wrongKind ↔
      ∃ moment, Moment.Leads (.start tree trial) moment ∧ moment.Clashes) := by
  -- The faults of every stop are known, and a clash is what the last one stands for.
  constructor
  · cases outcome : ((evaluate tree).run trial).1 with
    | ok value => exact .inl ⟨value, rfl⟩
    | error fault =>
      -- A fault is one of the four kinds, or it is the clash.
      refine .inr ⟨fault, rfl, ?_⟩
      rcases fault_of_evaluate outcome with kind | ⟨moment, reached, clash⟩
      · exact .inl kind
      · rw [evaluate_of_clashes reached clash] at outcome
        cases outcome
        exact .inr rfl
  · constructor
    -- A clash is of no kind that a calm step stops with.
    · intro failed
      rcases fault_of_evaluate failed with kind | found
      · exact absurd kind (by decide)
      · exact found
    · intro found
      obtain ⟨moment, reached, clash⟩ := found
      exact evaluate_of_clashes reached clash

/-- Half past ten without a zone is in no order with half past ten by world time. -/
example :
    let moment (zone : Option Int) : Tree := .literal (.datetime ⟨⟨2024, 5, 1⟩, 10, 30, 0, 0, zone⟩)
    ((evaluate (.binary (.order .less) (moment none) (moment (some 0)))).run
      (.start "exp" .default (.ofBase .empty))).1 = .error .wrongKind := by
  decide +kernel

end TrialScript
