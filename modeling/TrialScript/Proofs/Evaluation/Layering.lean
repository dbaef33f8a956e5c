import TrialScript.Proofs.Evaluation.Indistinguishable
import TrialScript.Proofs.Evaluation.Frame

/-! Layers are not observable: only the value of each name counts, not the layer it stands in. -/

namespace TrialScript

/-- Stores in which every name reads the same, whatever the default. -/
def Store.ReadsAlike {α : Type} (first second : Store α) : Prop :=
  ∀ name default, first.get name default = second.get name default

/-- Reading alike with every default is having the same values and missing the same names. -/
theorem Store.readsAlike_iff {first second : Store Value} :
    first.ReadsAlike second ↔ ∀ name, first.lookup name = second.lookup name := by
  constructor
  · intro alike name
    -- Of two different defaults, at least one tells a missing name from any value.
    have null := alike name .null
    have yes := alike name (.bool true)
    simp only [get] at null yes
    cases found : first.lookup name <;> cases found' : second.lookup name <;>
      simp only [found, found', Option.getD_some, Option.getD_none] at null yes ⊢
    · cases null.trans yes.symm
    · cases null.symm.trans yes
    · rw [null]
  · intro same name default
    rw [get, get, same name]

/-- What assignments keep between stores, an evaluation keeps, with or without a fault. -/
theorem evaluate_keeps {relation : Store Value → Store Value → Prop}
    (kept : Store.KeptByAssign relation) (tree : Tree) (trial : Trial) :
    relation trial.variables ((evaluate tree).run trial).2.variables := by
  obtain ⟨moment, reached, last⟩ := Moment.exists_outcome tree trial
  rw [← last]
  refine Moment.related_of_leads (fun before after => relation before.variables after.variables)
    reached (kept.refl _) kept.trans fun before effect _ => ?_
  cases effect with
  | none => exact kept.refl _
  | assign name value => exact kept.assign _ name value
  | finish value =>
    -- A return changes no variable.
    simp only [Effect.apply]
    split <;> exact kept.refl _

/--
The layers of the variables that a script starts with are not observable.

From stores that read alike it gives the same value or stops with the same fault, with the same
latches, and it leaves stores that read alike and list the same entries.
-/
theorem evaluate_layers_unobservable (tree : Tree) (name : String) (policy : Policy)
    {first second : Store Value} (listable : first.Listable) (listable' : second.Listable)
    (alike : first.ReadsAlike second) :
    let outcome := (evaluate tree).run (.start name policy first)
    let outcome' := (evaluate tree).run (.start name policy second)
    outcome.1 = outcome'.1 ∧ outcome.2.enabled = outcome'.2.enabled ∧
      outcome.2.returned = outcome'.2.returned ∧
      outcome.2.variables.ReadsAlike outcome'.2.variables ∧
      outcome.2.variables.toTable.Perm outcome'.2.variables.toTable := by
  -- The two trials agree on every name, and no step can tell them apart.
  have start : Trial.AgreesOn (fun _ => True) (.start name policy first)
      (.start name policy second) :=
    ⟨rfl, rfl, rfl, rfl, fun other _ => Store.readsAlike_iff.mp alike other⟩
  have bisimulation := Trial.AgreesOn.bisimulation fun (other : String)
    (_ : other ∈ tree.lookedUp) => trivial
  obtain ⟨outcomes, agrees⟩ := bisimulation.evaluate start
  have same := fun other => agrees.lookup other trivial
  refine ⟨outcomes, agrees.enabled, agrees.returned, Store.readsAlike_iff.mpr same, ?_⟩
  -- Both stores are still listable, so each lists exactly the values that a lookup finds.
  have listed := evaluate_keeps Store.Listable.kept tree (.start name policy first) listable
  have listed' := evaluate_keeps Store.Listable.kept tree (.start name policy second) listable'
  refine Table.perm_of_lookup? listed.nodup_names_toTable listed'.nodup_names_toTable
    fun other => ?_
  rw [listed.lookup?_toTable, listed'.lookup?_toTable, same other]

/-- A cleared name over a value below reads as no name at all, also once it is assigned again. -/
theorem evaluate_layers_unobservable_cleared :
    let layered : Store Value :=
      .child (.over (.mapping [("x", .int 1), ("y", .int 2)]) [("y", none)]) [("x", some (.int 3))]
    let flat : Store Value := .over .empty [("x", some (.int 3))]
    let tree : Tree := .assign "y" (.lookup "x")
    layered.Listable ∧ flat.Listable ∧ layered.ReadsAlike flat ∧
      let outcome := (evaluate tree).run (.start "exp" .default layered)
      let outcome' := (evaluate tree).run (.start "exp" .default flat)
      outcome.1 = outcome'.1 ∧ outcome.2.enabled = outcome'.2.enabled ∧
        outcome.2.returned = outcome'.2.returned ∧
        outcome.2.variables.ReadsAlike outcome'.2.variables ∧
        outcome.2.variables.toTable.Perm outcome'.2.variables.toTable := by
  -- The two stores agree on every name: on the one that is held, and on those that are not.
  intro layered flat tree
  have listable : layered.Listable := by
    simp [layered, Store.Listable, Base.Listable, Table.names]
  have listable' : flat.Listable := by
    simp [flat, Store.Listable, Base.Listable, Table.names]
  have alike : layered.ReadsAlike flat := by
    refine Store.readsAlike_iff.mpr fun name => ?_
    simp only [layered, flat, Store.lookup, Base.lookup, Table.lookup?]
    split
    · rfl
    · by_cases cleared : "y" = name <;> simp_all
  exact ⟨listable, listable', alike,
    evaluate_layers_unobservable tree "exp" .default listable listable' alike⟩

end TrialScript
