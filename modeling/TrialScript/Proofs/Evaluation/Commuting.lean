import TrialScript.Proofs.Evaluation.Indistinguishable
import TrialScript.Proofs.Trial.Draws

/-! Independent assignments: in every order they leave the same values behind. -/

namespace TrialScript

namespace Tree

/-- A script in which no node assigns or returns. -/
def Silent (tree : Tree) : Prop :=
  ∀ node ∈ tree.nodes, (∀ name value, node ≠ .assign name value) ∧
    ∀ operand, node ≠ .unary .finish operand

end Tree

/-- At every moment of an evaluation that assigns and returns nothing the trial is as it was. -/
theorem Moment.trial_of_silent {tree : Tree} (silent : tree.Silent) {trial : Trial}
    {moment : Moment} (reached : Leads (start tree trial) moment) : moment.trial = trial := by
  -- The induction is over the steps, of which only one that assigns or returns has an effect.
  induction reached with
  | refl => rfl
  | @tail before later reached step ih =>
    rw [trial_of_next? step, ← ih]
    rcases before.effect_cases with quiet | ⟨value, top, outer, -, inProgress, has⟩
    · rw [quiet, Effect.apply]
    · have inside := (inside_of_leads reached).active top (inProgress ▸ List.mem_cons_self)
      obtain ⟨noAssign, noFinish⟩ := silent top.node inside
      generalize top.node = node at has noAssign noFinish
      generalize before.effect = effect at has
      cases has with
      | assign name part => exact absurd rfl (noAssign name part)
      | finish operand => exact absurd rfl (noFinish operand)

/-- A script that assigns and returns nothing leaves the trial as it is. -/
theorem evaluate_of_silent {tree : Tree} (silent : tree.Silent) (trial : Trial) :
    ((evaluate tree).run trial).2 = trial := by
  have reached := Moment.follows tree [] trial
  generalize (evaluate tree).run trial = result at reached ⊢
  obtain ⟨value | fault, after⟩ := result <;> exact Moment.trial_of_silent silent reached

/-- A step that assigns a name the value of a script. -/
structure Assignment where
  name : String
  value : Tree

namespace Assignment

/-- The step as a script. -/
def step (assignment : Assignment) : Tree :=
  .assign assignment.name assignment.value

/-- The steps in order as a script. -/
def sequence (assignments : List Assignment) : Tree :=
  .sequence (assignments.map step)

/-- Two steps that assign different names and do not look up each other's. -/
structure Apart (first second : Assignment) : Prop where
  names : first.name ≠ second.name
  unread : first.name ∉ second.value.lookedUp
  unread' : second.name ∉ first.value.lookedUp

/-- Being apart does not depend on which assignment is named first. -/
theorem Apart.symm {first second : Assignment} (apart : Apart first second) : Apart second first :=
  ⟨apart.names.symm, apart.unread', apart.unread⟩

/-- The value of one step is the same before and after another one that is apart from it. -/
theorem Apart.value_assign {first second : Assignment} (apart : Apart first second) (value : Value)
    (trial : Trial) :
    ((evaluate second.value).run (trial.assign first.name value)).1 =
      ((evaluate second.value).run trial).1 := by
  have bisimulation := Trial.AgreesOn.bisimulation fun _ (member : _ ∈ second.value.lookedUp) =>
    member
  exact (bisimulation.evaluate (Trial.AgreesOn.assign apart.unread value trial)).1.symm

/-- The script of a step gives a value. -/
def Finishes (trial : Trial) (assignment : Assignment) : Prop :=
  ∃ value, ((evaluate assignment.value).run trial).1 = .ok value

/-- Whether one step finishes is the same before and after another one that is apart from it. -/
theorem Apart.finishes_assign {first second : Assignment} (apart : Apart first second)
    {value : Value} {trial : Trial} :
    second.Finishes (trial.assign first.name value) ↔ second.Finishes trial := by
  simp only [Finishes, apart.value_assign value trial]

/-- A step whose script is silent assigns the value of the script, or stops with its fault. -/
theorem run_step {assignment : Assignment} (silent : assignment.value.Silent) {trial : Trial}
    (running : trial.returned = false) :
    (evaluate assignment.step).run trial =
      match ((evaluate assignment.value).run trial).1 with
      | .ok value => (.ok value, trial.assign assignment.name value)
      | .error fault => (.error fault, trial) := by
  -- The script leaves the trial alone, so only its result tells what the step does.
  have still := evaluate_of_silent silent trial
  rw [step, evaluate, run_unlessReturned running, Stateful.run_bind]
  generalize (evaluate assignment.value).run trial = result at still ⊢
  obtain ⟨value | fault, after⟩ := result <;> cases still
  · simp
  · rfl

/-- What independent steps leave behind: each its value, and all else as it was. -/
structure Leaves (assignments : List Assignment) (before after : Trial) : Prop where
  assigned : ∀ assignment ∈ assignments, ∀ value,
    ((evaluate assignment.value).run before).1 = .ok value →
      after.variables.lookup assignment.name = some value
  others : ∀ name, (∀ assignment ∈ assignments, assignment.name ≠ name) →
    after.variables.lookup name = before.variables.lookup name
  enabled : after.enabled = before.enabled
  returned : after.returned = before.returned

/-- What a first step and the independent ones behind it leave behind. -/
theorem Leaves.cons {first : Assignment} {rest : List Assignment} {before after : Trial}
    {value : Value} (apart : ∀ later ∈ rest, Apart first later)
    (found : ((evaluate first.value).run before).1 = .ok value)
    (leaves : Leaves rest (before.assign first.name value) after) :
    Leaves (first :: rest) before after where
  assigned := by
    refine List.forall_mem_cons.mpr ⟨fun given finds => ?_, fun later member given finds => ?_⟩
    · -- No later step assigns the name again.
      rw [found] at finds
      cases finds
      rw [leaves.others first.name fun later member => (apart later member).names.symm]
      simp only [Trial.assign, Store.lookup_assign, if_true]
    · rw [← (apart later member).value_assign value before] at finds
      exact leaves.assigned later member given finds
  others name unassigned := by
    obtain ⟨differs, unassigned⟩ := List.forall_mem_cons.mp unassigned
    rw [leaves.others name unassigned]
    simp only [Trial.assign, Store.lookup_assign, if_neg differs]
  enabled := leaves.enabled
  returned := leaves.returned

section Steps

variable {assignments : List Assignment} {before : Trial}

/-- Independent steps of which each finishes on its own finish one after the other. -/
theorem run_steps (last : Value) (silent : ∀ assignment ∈ assignments, assignment.value.Silent)
    (apart : assignments.Pairwise Apart) (running : before.returned = false)
    (finish : ∀ assignment ∈ assignments, assignment.Finishes before) :
    ∃ value after, (evaluateSteps last (assignments.map step)).run before = (.ok value, after) ∧
      Leaves assignments before after := by
  -- The induction is over the steps, each of which changes no value of a later one.
  induction assignments generalizing before last with
  | nil => exact ⟨last, before, rfl, by simp, fun _ _ => rfl, rfl, rfl⟩
  | cons first rest ih =>
    obtain ⟨silentFirst, silentRest⟩ := List.forall_mem_cons.mp silent
    obtain ⟨⟨value, found⟩, finishRest⟩ := List.forall_mem_cons.mp finish
    obtain ⟨fromFirst, apartRest⟩ := List.pairwise_cons.mp apart
    have finishLater : ∀ later ∈ rest, later.Finishes (before.assign first.name value) :=
      fun later member => (fromFirst later member).finishes_assign.mpr (finishRest later member)
    have runningLater : (before.assign first.name value).returned = false := running
    obtain ⟨result, after, ran, leaves⟩ := ih value silentRest apartRest runningLater finishLater
    refine ⟨result, after, ?_, leaves.cons fromFirst found⟩
    simp [evaluateSteps, Stateful.run_bind, running, run_step silentFirst running, found, ran]

/-- Independent steps that finish one after the other finish each on its own. -/
theorem finishes_of_run_steps {last value : Value} {after : Trial}
    (silent : ∀ assignment ∈ assignments, assignment.value.Silent)
    (apart : assignments.Pairwise Apart) (running : before.returned = false)
    (ran : (evaluateSteps last (assignments.map step)).run before = (.ok value, after)) :
    ∀ assignment ∈ assignments, assignment.Finishes before := by
  -- The induction is over the steps; had the first one stopped, the whole would have stopped.
  induction assignments generalizing before last with
  | nil => simp
  | cons first rest ih =>
    obtain ⟨silentFirst, silentRest⟩ := List.forall_mem_cons.mp silent
    obtain ⟨fromFirst, apartRest⟩ := List.pairwise_cons.mp apart
    simp only [List.map_cons, evaluateSteps, Stateful.run_bind, Stateful.run_get, running,
      Bool.false_eq_true, if_false, run_step silentFirst running] at ran
    cases found : ((evaluate first.value).run before).1 with
    | error fault =>
      rw [found] at ran
      cases ran
    | ok given =>
      rw [found] at ran
      have runningLater : (before.assign first.name given).returned = false := running
      -- What comes after the first step does not read its name, so it finishes from the start too.
      have finishLater := ih silentRest apartRest runningLater ran
      refine List.forall_mem_cons.mpr ⟨⟨given, found⟩, fun later member => ?_⟩
      exact (fromFirst later member).finishes_assign.mp (finishLater later member)

end Steps

/-- Whatever order independent steps are in, they leave the same values behind. -/
theorem Leaves.lookup_of_perm {assignments permuted : List Assignment} {before after after' : Trial}
    (perm : assignments.Perm permuted)
    (finish : ∀ assignment ∈ assignments, assignment.Finishes before)
    (leaves : Leaves assignments before after) (leaves' : Leaves permuted before after')
    (name : String) : after'.variables.lookup name = after.variables.lookup name := by
  by_cases assigned : ∃ assignment ∈ assignments, assignment.name = name
  · -- Both orders leave the value that the step has on its own.
    obtain ⟨assignment, member, rfl⟩ := assigned
    obtain ⟨value, found⟩ := finish assignment member
    rw [leaves.assigned assignment member value found,
      leaves'.assigned assignment (perm.mem_iff.mp member) value found]
  · -- Neither order touches the name.
    have others : ∀ assignment ∈ assignments, assignment.name ≠ name :=
      fun assignment member same => assigned ⟨assignment, member, same⟩
    rw [leaves.others name others,
      leaves'.others name fun assignment member => others assignment (perm.mem_iff.mpr member)]

end Assignment

/--
Independent assignments commute.

If a sequence of them finishes, it finishes in every other order, with the same value or none for
every name and with the same latches.
-/
theorem independent_assignments_commute {assignments permuted : List Assignment}
    (silent : ∀ assignment ∈ assignments, assignment.value.Silent)
    (apart : assignments.Pairwise Assignment.Apart) (perm : assignments.Perm permuted)
    {trial after : Trial} {value : Value}
    (finished : (evaluate (Assignment.sequence assignments)).run trial = (.ok value, after)) :
    ∃ value' after',
      (evaluate (Assignment.sequence permuted)).run trial = (.ok value', after') ∧
      (∀ name, after'.variables.lookup name = after.variables.lookup name) ∧
      after'.enabled = after.enabled ∧ after'.returned = after.returned := by
  by_cases returned : trial.returned = true
  · -- After a return no order does anything.
    rw [evaluate_of_returned _ returned] at finished
    cases finished
    exact ⟨_, _, evaluate_of_returned _ returned, fun _ => rfl, rfl, rfl⟩
  · have running : trial.returned = false := by simpa using returned
    simp only [Assignment.sequence, evaluate, run_unlessReturned running] at finished ⊢
    -- Each step finishes on its own, and so both orders leave its value behind.
    have finish := Assignment.finishes_of_run_steps silent apart running finished
    obtain ⟨value, after, ran, leaves⟩ :=
      Assignment.run_steps .null silent apart running finish
    cases finished.symm.trans ran
    obtain ⟨value', after', ran', leaves'⟩ := Assignment.run_steps .null
      (fun assignment member => silent assignment (perm.mem_iff.mpr member))
      ((perm.pairwise_iff Assignment.Apart.symm).mp apart) running
      (fun assignment member => finish assignment (perm.mem_iff.mpr member))
    refine ⟨value', after', ran', leaves.lookup_of_perm perm finish leaves', ?_, ?_⟩
    · rw [leaves.enabled, leaves'.enabled]
    · rw [leaves.returned, leaves'.returned]

/-- A draw and a pair that looks up its own name are assigned in either order. -/
theorem independent_assignments_commute_draw :
    let choices : Tree := .literal (.list [.int 1, .int 2])
    let draw : Assignment := ⟨"x", .uniformChoice choices (.lookup "id")⟩
    let pair : Assignment := ⟨"y", .array [.lookup "id", .lookup "y"]⟩
    let trial := Trial.start "exp" .default (.ofBase (.mapping [("id", .int 7)]))
    let after := (trial.assign "x" (.int 2)).assign "y" (.list [.int 7, .null])
    (∀ assignment ∈ [draw, pair], assignment.value.Silent) ∧
      [draw, pair].Pairwise Assignment.Apart ∧
      (evaluate (Assignment.sequence [draw, pair])).run trial =
        (.ok (.list [.int 7, .null]), after) ∧
      ∃ value' after',
        (evaluate (Assignment.sequence [pair, draw])).run trial = (.ok value', after') ∧
        (∀ name, after'.variables.lookup name = after.variables.lookup name) ∧
        after'.enabled = after.enabled ∧ after'.returned = after.returned := by
  -- The draw does not read the second name, and the pair reads neither of the draw.
  intro choices draw pair trial after
  have silent : ∀ assignment ∈ [draw, pair], assignment.value.Silent := by
    refine List.forall_mem_cons.mpr ⟨?_, List.forall_mem_singleton.mpr ?_⟩ <;>
      intro node inside <;>
      simp only [draw, pair, choices, Tree.nodes_eq, Tree.parts, List.flatMap_cons,
        List.flatMap_nil, List.cons_append, List.nil_append, List.mem_cons, List.not_mem_nil,
        or_false] at inside
    · rcases inside with rfl | rfl | rfl <;> simp
    · rcases inside with rfl | rfl | rfl <;> simp
  -- Neither looks up the name of the other, as far as the tree says.
  have apart : [draw, pair].Pairwise Assignment.Apart := by
    refine List.pairwise_pair.mpr ⟨by decide, ?_, ?_⟩ <;>
      simp [draw, pair, choices, Tree.lookedUp, Tree.nodes_eq, Tree.parts, Tree.ownLookup?]
  have drawn : trial.uniformChoice [.int 1, .int 2] (.int 7) = .ok (Value.int 2) := by
    have position : trial.below 2 (.int 7) = 1 := by decide +kernel
    simp only [Trial.uniformChoice_below, List.length_cons, List.length_nil, position]
    rfl
  have running : trial.returned = false := rfl
  -- Each step is run once, and their order in the sequence only puts them together.
  have first : (evaluate draw.step).run trial = (.ok (.int 2), trial.assign "x" (.int 2)) := by
    have ran : (evaluate draw.value).run trial =
        (trial.uniformChoice [.int 1, .int 2] (.int 7), trial) := by
      simp only [draw, choices, evaluate]
      rfl
    rw [Assignment.run_step (silent draw List.mem_cons_self) running, ran, drawn]
  have second : (evaluate pair.step).run (trial.assign "x" (.int 2)) =
      (.ok (.list [.int 7, .null]), after) := by
    simp only [pair, Assignment.step, evaluate, evaluateItems]
    rfl
  have finished : (evaluate (Assignment.sequence [draw, pair])).run trial =
      (.ok (.list [.int 7, .null]), after) := by
    have runningLater : (trial.assign "x" (.int 2)).returned = false := rfl
    simp [Assignment.sequence, evaluate, run_unlessReturned running, evaluateSteps,
      Stateful.run_bind, running, runningLater, first, second]
  have perm : [draw, pair].Perm [pair, draw] := List.Perm.swap pair draw []
  exact ⟨silent, apart, finished, independent_assignments_commute silent apart perm finished⟩

end TrialScript
