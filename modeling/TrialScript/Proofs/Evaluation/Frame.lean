import TrialScript.Proofs.Evaluation.Agreement
import TrialScript.Proofs.Evaluation.Inside
import TrialScript.Proofs.Store

/-! The frame of an evaluation: what it leaves alone, and that its two latches move one way only. -/

namespace TrialScript

namespace Moment

/-- What every effect of a script keeps holds between the start and every later moment. -/
theorem related_of_leads (relation : Trial → Trial → Prop) {tree : Tree} {trial : Trial}
    {moment : Moment} (reached : Leads (start tree trial) moment)
    (refl : relation trial trial)
    (trans : ∀ {first second third}, relation first second → relation second third →
      relation first third)
    (kept : ∀ (before : Trial) (effect : Effect),
      (∀ name value, effect = .assign name value → name ∈ tree.assigned) →
      relation before (effect.apply before)) :
    relation trial moment.trial := by
  -- The induction is over the steps, each of which has one effect.
  induction reached with
  | refl => exact refl
  | @tail moment later before step ih =>
    rw [trial_of_next? step]
    refine trans ih (kept _ _ fun name value assigns => ?_)
    -- An assignment is one that the script makes somewhere.
    exact mem_assigned_of_assigns ⟨moment, value, before, assigns⟩

/-- The outcome of an evaluation is one of its moments. -/
theorem exists_outcome (tree : Tree) (trial : Trial) :
    ∃ moment, Leads (start tree trial) moment ∧
      moment.trial = ((evaluate tree).run trial).2 := by
  -- A value and a fault both leave the trial that the evaluation ends with.
  refine ⟨_, follows tree [] trial, ?_⟩
  cases (evaluate tree).run trial with
  | mk outcome later => cases outcome <;> rfl

end Moment

namespace Trial

/-- What may differ between two states of one trial if only the given names were assigned. -/
structure Frame (names : List String) (before after : Trial) : Prop where
  /-- The trial keeps its name. -/
  name : after.name = before.name
  /-- The trial keeps its policy. -/
  policy : after.policy = before.policy
  /-- Every layer below the top one is as it was. -/
  below : before.variables.Overlays after.variables
  /-- In the top layer only the given names may have another entry. -/
  others : ∀ other, other ∉ names →
    after.variables.layer.lookup? other = before.variables.layer.lookup? other
  /-- No name leaves the top layer, and new ones come behind the old ones. -/
  held : before.variables.layer.names <+: after.variables.layer.names
  /-- What is cleared in the top layer was cleared before. -/
  cleared : ∀ other, after.variables.layer.lookup? other = some none →
    before.variables.layer.lookup? other = some none
  /-- A return is never taken back. -/
  returned : before.returned = true → after.returned = true
  /-- What is enabled was enabled before. -/
  enabled : after.enabled = true → before.enabled = true
  /-- Whatever was disabled in between has returned. -/
  refused : before.enabled = true → after.enabled = false → after.returned = true

namespace Frame

variable {names : List String}

/-- A trial that was left alone is in its own frame. -/
theorem refl (trial : Trial) : Frame names trial trial where
  name := rfl
  policy := rfl
  below := .refl _
  others _ _ := rfl
  held := List.prefix_rfl
  cleared _ cleared := cleared
  returned returned := returned
  enabled enabled := enabled
  refused enabled disabled := by simp [enabled] at disabled

/-- A frame around a frame is one. -/
theorem trans {first second third : Trial} (earlier : Frame names first second)
    (later : Frame names second third) : Frame names first third where
  name := later.name.trans earlier.name
  policy := later.policy.trans earlier.policy
  below := earlier.below.trans later.below
  others other foreign := (later.others other foreign).trans (earlier.others other foreign)
  held := earlier.held.trans later.held
  cleared other cleared := earlier.cleared other (later.cleared other cleared)
  returned returned := later.returned (earlier.returned returned)
  enabled enabled := earlier.enabled (later.enabled enabled)
  refused enabled disabled := by
    -- The trial was disabled before the middle or after it, and a return then stays.
    cases between : second.enabled with
    | true => exact later.refused between disabled
    | false => exact later.returned (earlier.refused enabled between)

/-- An assignment of one of the names stays within the frame. -/
theorem assign {name : String} (member : name ∈ names) (value : Value) (trial : Trial) :
    Frame names trial (trial.assign name value) where
  name := rfl
  policy := rfl
  below := .assign _ name value
  others other foreign := by
    have differs : name ≠ other := by
      rintro rfl
      exact foreign member
    simp [Trial.assign, Store.assign, Table.lookup?_put, differs]
  held := by
    simp only [Trial.assign, Store.assign, Store.layer_withLayer]
    exact Table.names_prefix_put name (some value) _
  cleared other cleared := by
    -- The assigned name has a value now, and every other one has its old entry.
    simp only [Trial.assign, Store.assign, Store.layer_withLayer, Table.lookup?_put] at cleared
    split at cleared
    · cases cleared
    · exact cleared
  returned returned := returned
  enabled enabled := enabled
  refused enabled disabled := by simp [Trial.assign, enabled] at disabled

/-- A return sets the latches and touches no variable. -/
theorem finish (value : Value) (trial : Trial) :
    Frame names trial ((Effect.finish value).apply trial) := by
  -- The returned latch is set in any case, so disabling the trial needs nothing further.
  simp only [Effect.apply]
  split
  all_goals
    constructor <;> simp [markReturned, disable, Store.Overlays.refl]

/-- An effect that assigns none but the given names stays within the frame. -/
theorem effect {effect : Effect}
    (assigned : ∀ name value, effect = .assign name value → name ∈ names) (trial : Trial) :
    Frame names trial (effect.apply trial) := by
  cases effect with
  | none => exact .refl trial
  | assign name value => exact assign (assigned name value rfl) value trial
  | finish value => exact finish value trial

end Frame
end Trial

/-- Every moment of an evaluation is within the frame of the names that the script assigns. -/
theorem Moment.frame_of_leads {tree : Tree} {trial : Trial} {moment : Moment}
    (reached : Leads (start tree trial) moment) :
    Trial.Frame tree.assigned trial moment.trial :=
  related_of_leads _ reached (.refl trial) .trans fun before _ assigned => .effect assigned before

/--
An evaluation stays within its frame, whether it gives a value or stops with a fault.

A trial that has returned already is left as it is, and the value is null.
-/
theorem evaluate_frame (tree : Tree) (trial : Trial) :
    Trial.Frame tree.assigned trial ((evaluate tree).run trial).2 ∧
      (trial.returned = true → (evaluate tree).run trial = (.ok .null, trial)) := by
  constructor
  · -- The outcome is one of the moments, each of which is within the frame.
    obtain ⟨moment, reached, last⟩ := Moment.exists_outcome tree trial
    exact last ▸ Moment.frame_of_leads reached
  · exact evaluate_of_returned tree

/-- Evaluating a script that assigns nothing changes no variable, with or without a fault. -/
theorem variables_evaluate {tree : Tree} (silent : tree.assigned = []) (trial : Trial) :
    ((evaluate tree).run trial).2.variables = trial.variables := by
  obtain ⟨moment, reached, last⟩ := Moment.exists_outcome tree trial
  rw [← last]
  refine Moment.related_of_leads (fun before after => after.variables = before.variables)
    reached rfl (fun earlier later => later.trans earlier) fun before effect assigned => ?_
  -- The two latches are not among the variables, and no name is assigned.
  cases effect with
  | none => rfl
  | assign name value => simp [silent] at assigned
  | finish value =>
    simp only [Effect.apply]
    split <;> rfl

end TrialScript
