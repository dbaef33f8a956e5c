import TrialScript.Proofs.Evaluation.Machine

/-! The effects of single steps: only assignments and returns that complete change the trial. -/

namespace TrialScript

namespace Move

variable {α : Type}

/-- Visiting a part has no effect. -/
@[simp] theorem effect_visit (part : Tree) : (Move.visit part).effect = .none := rfl

/-- Stopping has no effect. -/
@[simp] theorem effect_stop (fault : Fault) : (Move.stop fault).effect = .none := rfl

/-- Completing a node has the effect it is completed with. -/
@[simp] theorem effect_complete (value : Value) (effect : Effect) :
    (Move.complete value effect).effect = effect := rfl

/-- A check has no effect if nothing that may follow it has one. -/
theorem effect_check {result : Except Fault α} {next : α → Move}
    (quiet : ∀ found, (next found).effect = .none) : (check result next).effect = .none := by
  -- A fault has no effect, and a result goes on with a move that has none.
  cases result with
  | ok found => exact quiet found
  | error fault => rfl

/-- Giving a result has no effect. -/
@[simp] theorem effect_give (result : Except Fault Value) : (give result).effect = .none :=
  effect_check fun _ => rfl

/-- Visiting a part behind a check has no effect. -/
@[simp] theorem effect_visitAfter (part : Tree) (checked : Except Fault α) :
    (visitAfter part checked).effect = .none :=
  effect_check fun _ => rfl

/-- Visiting parts in turn has at most the effect of the last move. -/
theorem effect_each {parts : List Tree} {values : List Value} {last : Move}
    (quiet : last.effect = .none) : (each parts values last).effect = .none := by
  -- A visit has no effect, so only the last move could have one.
  unfold each
  split
  · rfl
  · exact quiet

/-- Settling a connective has no effect. -/
@[simp] theorem effect_settle (decisive : Bool) (operands : List Tree) (values : List Value) :
    (settle decisive operands values).effect = .none := by
  -- An operand that decides completes the node, which has no effect either.
  unfold settle
  split
  · exact effect_each rfl
  · refine effect_check fun holds => ?_
    split
    · rfl
    · exact effect_each rfl

/-- Choosing a clause has no effect. -/
@[simp] theorem effect_choose (clauses : List (Tree × Tree)) (values : List Value) :
    (choose clauses values).effect = .none := by
  -- The induction is on the clauses, of which those that did not hold are passed over.
  induction clauses generalizing values with
  | nil => rfl
  | cons clause rest ih =>
    cases values with
    | nil => rfl
    | cons value values =>
      refine effect_check fun holds => ?_
      split
      · -- The body is visited, or it has given the result.
        cases values <;> rfl
      · exact ih values

end Move

/-- The nodes that change the trial when they complete. -/
inductive Tree.HasEffect (value : Value) : Tree → Effect → Prop where
  | assign (name : String) (part : Tree) : HasEffect value (.assign name part) (.assign name value)
  | finish (operand : Tree) : HasEffect value (.unary .finish operand) (.finish value)

/-- A node has no effect, or it assigns or returns the value that it was handed last. -/
theorem Tree.effect_move (tree : Tree) (trial : Trial) (values : List Value) :
    (tree.move trial values).effect = .none ∨
      ∃ value, values.getLast? = some value ∧
        tree.HasEffect value (tree.move trial values).effect := by
  -- Only the two nodes that act on their last value have an effect, once they have it.
  cases tree with
  | assign name part =>
    simp only [Tree.move]
    split
    · exact .inl rfl
    · exact .inr ⟨_, ‹_›, .assign name part⟩
  | unary op operand =>
    cases op with
    | finish =>
      simp only [Tree.move]
      split
      · exact .inl rfl
      · exact .inr ⟨_, ‹_›, .finish operand⟩
    | _ =>
      simp only [Tree.move]
      split <;> simp
  | scalar _ | literal _ | lookup _ => exact .inl rfl
  | array items => exact .inl (Move.effect_each rfl)
  | sequence steps =>
    -- A sequence completes when the trial has returned, or after its last step.
    simp only [Tree.move]
    split
    · exact .inl rfl
    · exact .inl (Move.effect_each rfl)
  | connective op operands => cases op <;> simp [Tree.move]
  | fold op operands =>
    simp only [Tree.move]
    exact .inl (Move.effect_check fun _ => Move.effect_each (Move.effect_give _))
  | cond clauses => simp [Tree.move]
  | sample choices draws unit =>
    simp only [Tree.move]
    split <;> split <;> simp
  | _ =>
    -- The remaining nodes have a fixed number of parts and give a result without an effect.
    simp only [Tree.move]
    split <;> simp

namespace Moment

/-- A step changes the trial by its effect and by nothing else. -/
theorem trial_of_next? {moment later : Moment} (step : moment.next? = some later) :
    later.trial = moment.effect.apply moment.trial := by
  -- A move that visits a part or stops leaves the trial as it is.
  have made : ∀ top outer trial move,
      (after top outer trial move).trial = move.effect.apply trial := by
    intro top outer trial move
    cases move <;> rfl
  obtain ⟨phase, active, trial⟩ := moment
  cases phase with
  | enter tree =>
    cases step
    -- After a return the node is not taken up at all.
    by_cases returned : trial.returned = true
    · simp [effect, returned, Effect.apply]
    · simp only [effect, if_neg returned]
      exact made _ _ _ _
  | handOver value =>
    cases active with
    | nil => cases step
    | cons top outer =>
      cases step
      exact made _ _ _ _
  | stopped fault => cases step

/-- Only a node that is handed a value has an effect: it assigns or returns that value. -/
theorem effect_cases (moment : Moment) :
    moment.effect = .none ∨ ∃ value top outer, moment.phase = .handOver value ∧
      moment.active = top :: outer ∧ top.node.HasEffect value moment.effect := by
  -- A node that is entered has no value yet, so an effect needs a value that is handed over.
  obtain ⟨phase, active, trial⟩ := moment
  cases phase with
  | enter tree =>
    left
    simp only [effect]
    split
    · rfl
    · simpa using tree.effect_move trial []
  | handOver value =>
    cases active with
    | nil => exact .inl rfl
    | cons top outer =>
      rcases top.node.effect_move trial (top.values ++ [value]) with quiet | ⟨last, final, has⟩
      · exact .inl quiet
      · -- The value that the node was handed last is the one handed over now.
        rw [List.getLast?_concat, Option.some.injEq] at final
        exact .inr ⟨value, top, outer, rfl, rfl, final ▸ has⟩
  | stopped fault => exact .inl rfl

end Moment
end TrialScript
