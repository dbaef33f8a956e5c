import TrialScript.Evaluation

/-! Running a whole script for one subject. -/

namespace TrialScript

/-- What a script is given: nothing, a mapping that stays as it is, or a store to write to. -/
inductive Inputs (α : Type) where
  | none
  | mapping (entries : Table α)
  | store (held : Store α)

/-- The variables of a trial with some inputs; a mapping lies below a fresh layer. -/
def Inputs.variables {α : Type} : Inputs α → Store α
  | .none => .ofBase .empty
  | .mapping entries => .ofBase (.mapping entries)
  | .store held => held

/--
The finished trial of a script, or why it stopped, with the variables as they were left.

Lines that are logged on the way change none of this, and are not among the results.
-/
def execute (name : String) (script : Value) (inputs : Inputs Value) (settings : Settings) :
    Except Fault Trial × Store Value :=
  -- The script is read before the policy is checked.
  match Tree.parse script, settings.policy with
  | .error fault, _ => (.error fault, inputs.variables)
  | .ok _, .error fault => (.error fault, inputs.variables)
  | .ok tree, .ok policy =>
    match (evaluate tree).run (Trial.start name policy inputs.variables) with
    | (.error fault, trial) => (.error fault, trial.variables)
    | (.ok _, trial) => (.ok trial, trial.variables)

end TrialScript
