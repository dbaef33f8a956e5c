import TrialScript.Proofs.Evaluation.Agreement
import TrialScript.Proofs.Evaluation.Effects

/-! After a return an evaluation only unwinds: what was in progress completes, and nothing starts. -/

namespace TrialScript

/-- An effect never takes a return back. -/
theorem Effect.returned_apply {trial : Trial} (effect : Effect) (returned : trial.returned = true) :
    (effect.apply trial).returned = true := by
  -- No effect writes to the latch except to set it.
  cases effect with
  | none => exact returned
  | assign name value => exact returned
  | finish value =>
    simp only [Effect.apply]
    split <;> rfl

/-- Marking a returned trial as returned once more changes nothing. -/
theorem Trial.markReturned_of_returned {trial : Trial} (returned : trial.returned = true) :
    trial.markReturned = trial := by
  -- The latch is the only field that is written.
  simp [Trial.markReturned, ← returned]

namespace Moment

/-- The nodes in progress, innermost first. -/
def nodes (moment : Moment) : List Tree :=
  moment.active.map Activation.node

/-- There is at most one next moment. -/
theorem rightUnique_next? :
    Relator.RightUnique fun earlier later : Moment => earlier.next? = some later := by
  -- The next moment is computed, so both are the same one.
  intro earlier later other step step'
  exact Option.some.inj (step.symm.trans step')

/-- Every moment of an evaluation leads to the outcome that the evaluation has. -/
theorem leads_outcome {tree : Tree} {trial : Trial} {moment : Moment}
    (reached : Leads (start tree trial) moment) :
    Leads moment (outcome [] ((evaluate tree).run trial)) := by
  -- Steps are determined, so two moments on one path lead one to the other.
  have whole : Leads (start tree trial) (outcome [] ((evaluate tree).run trial)) :=
    follows tree [] trial
  rcases reached.total_of_right_unique rightUnique_next? whole with onward | back
  · exact onward
  · -- Nothing comes after the outcome, so only the outcome itself is reached from it.
    rcases back.cases_head with same | ⟨other, step, -⟩
    · exact same ▸ .refl
    · cases result : (evaluate tree).run trial with
      | mk value later => cases value <;> simp [result, outcome, next?] at step

/-- A moment with a move made has no node in progress that was not in progress before. -/
theorem nodes_after (top : Activation) (outer : List Activation) (trial : Trial) (move : Move) :
    (after top outer trial move).nodes <:+ top.node :: outer.map Activation.node := by
  -- Visiting keeps the node in progress, and completing or stopping takes nodes away.
  cases move with
  | visit part => exact List.suffix_refl _
  | complete value effect => exact List.suffix_cons _ _
  | stop fault => exact List.nil_suffix

/-- Once the trial has returned it stays so, and no further node comes into progress. -/
theorem nodes_of_next? {moment later : Moment} (returned : moment.trial.returned = true)
    (step : moment.next? = some later) :
    later.trial.returned = true ∧ later.nodes <:+ moment.nodes := by
  -- The latch is kept by every effect, and a part that is entered is not taken up.
  constructor
  · rw [trial_of_next? step]
    exact moment.effect.returned_apply returned
  · obtain ⟨phase, active, trial⟩ := moment
    replace returned : trial.returned = true := returned
    cases phase with
    | enter tree =>
      -- A part that is entered now gives null to the node that visits it.
      simp only [next?, returned, if_true, Option.some.injEq] at step
      subst later
      exact List.suffix_refl _
    | handOver value =>
      cases active with
      | nil => cases step
      | cons top outer =>
        cases step
        exact nodes_after _ _ _ _
    | stopped fault => cases step

/-- After a return only nodes that were in progress then are in progress. -/
theorem nodes_of_leads {latch moment : Moment} (returned : latch.trial.returned = true)
    (since : Leads latch moment) : moment.trial.returned = true ∧ moment.nodes <:+ latch.nodes := by
  -- The induction is over the steps since the return.
  induction since with
  | refl => exact ⟨returned, List.suffix_refl _⟩
  | tail _ step ih =>
    obtain ⟨stillReturned, fewer⟩ := nodes_of_next? ih.1 step
    exact ⟨stillReturned, fewer.trans ih.2⟩

/-- The step at which a trial returns completes a return node. -/
theorem latching_step {before latch : Moment} (step : before.next? = some latch)
    (running : before.trial.returned = false) (returned : latch.trial.returned = true) :
    ∃ value operand values,
      before = ⟨.handOver value, ⟨.unary .finish operand, values⟩ :: latch.active, before.trial⟩ ∧
      latch.trial = (Effect.finish value).apply before.trial := by
  -- Of all effects only that of a return node sets the latch.
  have changed := trial_of_next? step
  rcases before.effect_cases with quiet | ⟨value, ⟨node, values⟩, outer, handed, inside, has⟩
  · -- Without an effect the latch would be as it was.
    rw [quiet] at changed
    simp [changed, Effect.apply, running] at returned
  · generalize before.effect = effect at changed has
    cases has with
    | assign name part => simp [changed, Effect.apply, Trial.assign, running] at returned
    | finish operand =>
      -- The node that was handed the value is gone after the step.
      obtain ⟨phase, active, trial⟩ := before
      simp only at handed inside
      subst phase active
      simp only [next?, resume, Tree.move, List.getLast?_concat, after, Option.some.injEq] at step
      subst latch
      exact ⟨value, operand, values, rfl, rfl⟩

/-- A step after a return, at which nothing happens but the completion of what was in progress. -/
structure Unwinds (latch moment later : Moment) : Prop where
  /-- Every node in progress was in progress at the return. -/
  inProgress : moment.nodes <:+ latch.nodes
  /-- A part that is entered gives null at once. -/
  entered : ∀ part, moment.phase = .enter part →
    later = ⟨.handOver .null, moment.active, moment.trial⟩
  /-- An assignment still assigns the value that it is handed. -/
  assigns : ∀ value name part values outer, moment.phase = .handOver value →
    moment.active = ⟨.assign name part, values⟩ :: outer →
      later = ⟨.handOver value, outer, moment.trial.assign name value⟩
  /-- A return still disables the trial if it is handed exactly false, and does nothing else. -/
  returns : ∀ value operand values outer, moment.phase = .handOver value →
    moment.active = ⟨.unary .finish operand, values⟩ :: outer →
      later = ⟨.handOver value, outer,
        if value = .bool false then moment.trial.disable else moment.trial⟩
  /-- The trial stays as it is where neither of the two is handed a value. -/
  silent : (∀ value top outer, moment.phase = .handOver value → moment.active = top :: outer →
      (∀ name part, top.node ≠ .assign name part) ∧ ∀ operand, top.node ≠ .unary .finish operand) →
    later.trial = moment.trial

/-- Every step after a return is one of unwinding. -/
theorem unwinds_of_leads {latch moment later : Moment} (returned : latch.trial.returned = true)
    (since : Leads latch moment) (step : moment.next? = some later) :
    Unwinds latch moment later := by
  obtain ⟨stillReturned, fewer⟩ := nodes_of_leads returned since
  have change := trial_of_next? step
  obtain ⟨phase, active, trial⟩ := moment
  replace stillReturned : trial.returned = true := stillReturned
  refine ⟨fewer, ?entered, ?assigns, ?returns, ?silent⟩
  case entered =>
    -- The latch is asked before anything else.
    intro part entering
    subst entering
    simpa [next?, stillReturned] using step.symm
  case assigns =>
    -- The value handed over is the last of the values that the node works with.
    intro value name part values outer handed inside
    subst handed inside
    simpa [next?, resume, Tree.move, after, Effect.apply] using step.symm
  case returns =>
    -- The latch is set already, so only the refusal can make a difference.
    intro value operand values outer handed inside
    subst handed inside
    simpa [next?, resume, Tree.move, after, Effect.apply,
      Trial.markReturned_of_returned stillReturned] using step.symm
  case silent =>
    -- Only an assignment and a return have an effect, and neither of them is handed a value.
    intro neither
    rcases effect_cases ⟨phase, active, trial⟩ with quiet | ⟨value, top, outer, handed, inside, has⟩
    · rw [change, quiet, Effect.apply]
    · obtain ⟨noAssign, noReturn⟩ := neither value top outer handed inside
      obtain ⟨node, values⟩ := top
      generalize effect _ = effect at has
      cases has with
      | assign name part => exact absurd rfl (noAssign name part)
      | finish operand => exact absurd rfl (noReturn operand)

/-- No step after a return changes a variable or whether the trial is enabled. -/
def SilentAfterReturn (tree : Tree) (trial : Trial) : Prop :=
  ∀ before latch moment later, Leads (start tree trial) before → before.next? = some latch →
    before.trial.returned = false → latch.trial.returned = true →
    Leads latch moment → moment.next? = some later →
    later.trial.variables = moment.trial.variables ∧ later.trial.enabled = moment.trial.enabled

/-- An assignment around a return still writes the value that was returned. -/
theorem not_silent_assign_around_return :
    ¬ SilentAfterReturn (.assign "x" (.unary .finish (.scalar (.num (.int 1)))))
      (.start "exp" .default (.ofBase .empty)) := by
  intro silent
  let trial := Trial.start "exp" .default (.ofBase .empty)
  let returning : Activation := ⟨.unary .finish (.scalar (.num (.int 1))), []⟩
  let assigning : Activation := ⟨.assign "x" (.unary .finish (.scalar (.num (.int 1)))), []⟩
  -- Three steps enter the nodes, the fourth one returns, and the fifth one assigns.
  have entered : Leads (start assigning.node trial)
      ⟨.handOver (.int 1), [returning, assigning], trial⟩ :=
    .head rfl (.head rfl (.head rfl .refl))
  have still := silent _ ⟨.handOver (.int 1), [assigning], trial.markReturned⟩ _
    ⟨.handOver (.int 1), [], trial.markReturned.assign "x" (.int 1)⟩ entered rfl rfl rfl .refl rfl
  exact absurd (congrArg (Store.lookup "x") still.1) (by decide)

/--
From the moment at which the trial returns, an evaluation only unwinds.

The return is the completion of a return node.
Later changes come only from assignments and returns that were in progress around that node.
-/
theorem unwinds_after_return {tree : Tree} {trial : Trial} {before latch moment later : Moment}
    (reached : Leads (start tree trial) before) (step : before.next? = some latch)
    (running : before.trial.returned = false) (returned : latch.trial.returned = true)
    (since : Leads latch moment) (further : moment.next? = some later) :
    Leads later (outcome [] ((evaluate tree).run trial)) ∧
      (∃ value operand values,
        before = ⟨.handOver value, ⟨.unary .finish operand, values⟩ :: latch.active, before.trial⟩ ∧
        latch.trial = (Effect.finish value).apply before.trial) ∧
      Unwinds latch moment later := by
  -- The steps before the latch, since it, and the next one make one path from the start.
  have onPath : Leads (start tree trial) later := ((reached.tail step).trans since).tail further
  exact ⟨leads_outcome onPath, latching_step step running returned,
    unwinds_of_leads returned since further⟩

/--
An assignment around a return assigns the returned value, and a return around both disables.

The inner return latches with true, and the outer one is handed the opposite of it.
-/
theorem unwinds_after_return_assign_disable :
    let trial := Trial.start "exp" .default (.ofBase .empty)
    let inner := Tree.unary .finish (.scalar (.bool true))
    let assigning := Tree.assign "x" inner
    let tree := Tree.unary .finish (.unary .not assigning)
    let around : List Activation := [⟨.unary .not assigning, []⟩, ⟨tree, []⟩]
    let latch : Moment := ⟨.handOver (.bool true), ⟨assigning, []⟩ :: around, trial.markReturned⟩
    let assigned : Moment := ⟨.handOver (.bool true), around, trial.markReturned.assign "x" (.bool true)⟩
    let refusing : Moment := ⟨.handOver (.bool false), [⟨tree, []⟩], assigned.trial⟩
    let disabled : Moment := ⟨.handOver (.bool false), [], assigned.trial.disable⟩
    Unwinds latch latch assigned ∧ assigned.trial.variables.lookup "x" = some (.bool true) ∧
      Unwinds latch refusing disabled ∧ refusing.trial.enabled = true ∧
      disabled.trial.enabled = false ∧
      Leads disabled (outcome [] ((evaluate tree).run trial)) := by
  intro trial inner assigning tree around latch assigned refusing disabled
  let before : Moment := ⟨.handOver (.bool true), ⟨inner, []⟩ :: ⟨assigning, []⟩ :: around, trial⟩
  -- Five steps enter the nodes, the sixth one returns, and the last two complete what is around.
  have reached : Leads (start tree trial) before :=
    .head rfl (.head rfl (.head rfl (.head rfl (.head rfl .refl))))
  have returning : before.next? = some latch := rfl
  have assigns : latch.next? = some assigned := rfl
  have refuses : assigned.next? = some refusing := rfl
  have disables : refusing.next? = some disabled := rfl
  have first := unwinds_after_return reached returning rfl rfl .refl assigns
  have last := unwinds_after_return reached returning rfl rfl (.tail (.single assigns) refuses)
    disables
  exact ⟨first.2.2, rfl, last.2.2, rfl, rfl, last.1⟩

end Moment
end TrialScript
