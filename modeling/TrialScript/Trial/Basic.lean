import TrialScript.Policy
import TrialScript.Store

/-! Trials: one run of a script for one subject, with its variables and two latches. -/

namespace TrialScript

/-- A run in progress; it can be disabled and can have returned, and neither is ever undone. -/
structure Trial where
  name : String
  policy : Policy
  «variables» : Store Value
  enabled : Bool
  returned : Bool

/-- A computation that may change a trial and may stop with a fault, keeping changes made so far. -/
abbrev Run := ExceptT Fault (StateM Trial)

namespace Trial

/-- A trial before its first step. -/
def start (name : String) (policy : Policy) (held : Store Value) : Trial :=
  ⟨name, policy, held, true, false⟩

/-- The number that a name and a salt are digested to; every salt gives zero once disabled. -/
def hash (trial : Trial) (salt : Value) : Nat :=
  if trial.enabled then trial.policy.seed trial.name salt else 0

/-- The same trial with one variable assigned. -/
def assign (name : String) (value : Value) (trial : Trial) : Trial :=
  { trial with «variables» := trial.variables.assign name value }

/-- The same trial with one variable cleared. -/
def clear (name : String) (trial : Trial) : Trial :=
  { trial with «variables» := trial.variables.clear name }

/-- The same trial, disabled. -/
def disable (trial : Trial) : Trial :=
  { trial with enabled := false }

/-- The same trial, returned. -/
def markReturned (trial : Trial) : Trial :=
  { trial with returned := true }

/-- The text of a trial: its name and its latches. -/
def display (trial : Trial) : String :=
  "ExperimentRun(name=" ++ quoted trial.name ++
    ", enabled=" ++ (Value.bool trial.enabled).display ++
    ", returned=" ++ (Value.bool trial.returned).display ++ ")"

end Trial
end TrialScript
