import TrialScript.Proofs.Evaluation.Inside
import TrialScript.Proofs.Evaluation.Latch

/-! Trials that a script cannot tell apart: it has the same outcome in both of them. -/

namespace TrialScript

namespace Trial

/-- Trials in which every salt gives the same hash, whole or as a share of the largest one. -/
structure DrawsAlike (first second : Trial) : Prop where
  hash : ∀ salt, first.hash salt = second.hash salt
  fraction : ∀ salt, first.fraction salt = second.fraction salt

namespace DrawsAlike

variable {α : Type} {first second : Trial} (alike : DrawsAlike first second)
include alike

/-- Integers between bounds depend on the trial through its hashes. -/
theorem integerBetween (low high : Number) (salt : Value) :
    first.integerBetween low high salt = second.integerBetween low high salt := by
  simp only [Trial.integerBetween, alike.hash]

/-- Positions are integers between bounds. -/
theorem position (last : Int) (salt : Value) :
    first.position last salt = second.position last salt := by
  simp only [Trial.position, alike.integerBetween]

/-- Numbers between bounds depend on the trial through its shares. -/
theorem floatBetween (low high : Number) (salt : Value) :
    first.floatBetween low high salt = second.floatBetween low high salt := by
  simp only [Trial.floatBetween, alike.fraction]

/-- Numbers of either kind between bounds are drawn alike. -/
theorem rangeDraw (kind : RangeKind) (low high : Number) (salt : Value) :
    kind.draw first low high salt = kind.draw second low high salt := by
  cases kind with
  | integer => exact alike.integerBetween low high salt
  | float => exact alike.floatBetween low high salt

/-- A uniform choice is made by its position. -/
theorem uniformChoice (choices : List α) (salt : Value) :
    first.uniformChoice choices salt = second.uniformChoice choices salt := by
  simp only [Trial.uniformChoice, alike.position]

/-- A weighted choice is made by a share of the weights. -/
theorem weightedChoice (choices : List α) (weights : List Number) (salt : Value) :
    first.weightedChoice choices weights salt = second.weightedChoice choices weights salt := by
  simp only [Trial.weightedChoice, firstReaching?, alike.floatBetween]

/-- A sample is shuffled by the positions of its exchanges. -/
theorem sample (choices : List α) (draws : Option Number) (salt : Value) :
    first.sample choices draws salt = second.sample choices draws salt := by
  simp only [Trial.sample, alike.position]

/-- Whether a draw falls under a probability depends on its share. -/
theorem occurs (p : Number) (salt : Value) : first.occurs p salt = second.occurs p salt := by
  simp only [Trial.occurs, alike.fraction]

/-- A trial with a probability is one draw. -/
theorem bernoulliTrial (p : Number) (salt : Value) :
    first.bernoulliTrial p salt = second.bernoulliTrial p salt := by
  simp only [Trial.bernoulliTrial, alike.occurs]

/-- Items are kept by draws of their own. -/
theorem filterFrom (p : Number) (salt : Value) (index : Nat) (choices : List α) :
    first.filterFrom p salt index choices = second.filterFrom p salt index choices := by
  -- The induction is on the choices, each of which has a draw of its own.
  induction choices generalizing index with
  | nil => rfl
  | cons choice rest ih => simp only [Trial.filterFrom, alike.occurs, ih]

/-- A filter keeps the same choices. -/
theorem bernoulliFilter (choices : List α) (p : Number) (salt : Value) :
    first.bernoulliFilter choices p salt = second.bernoulliFilter choices p salt := by
  simp only [Trial.bernoulliFilter, alike.filterFrom]

end DrawsAlike

/-- Trials that look alike to a node that looks up only the given names. -/
structure LooksAlike (names : List String) (first second : Trial) : Prop
    extends DrawsAlike first second where
  returned : first.returned = second.returned
  lookup : ∀ name ∈ names, first.variables.lookup name = second.variables.lookup name

end Trial

namespace Tree

/-- The name that a node looks up itself. -/
def ownLookup? : Tree → Option String
  | .lookup name => some name
  | _ => none

/-- The names that a script looks up anywhere. -/
def lookedUp (tree : Tree) : List String :=
  tree.nodes.filterMap ownLookup?

/-- A name that a node inside a script looks up is one that the script looks up. -/
theorem mem_lookedUp {node tree : Tree} {name : String} (inside : node ∈ tree.nodes)
    (looks : node.ownLookup? = some name) : name ∈ tree.lookedUp :=
  List.mem_filterMap.mpr ⟨node, inside, looks⟩

/-- In trials that look alike to a node, its next move is the same. -/
theorem move_of_looksAlike {tree : Tree} {names : List String} {first second : Trial}
    (alike : first.LooksAlike names second)
    (own : ∀ name, tree.ownLookup? = some name → name ∈ names) (values : List Value) :
    tree.move first values = tree.move second values := by
  -- Only lookups, sequences and draws look at the trial at all.
  cases tree with
  | lookup name => simp only [move, Store.get, alike.lookup name (own name rfl)]
  | sequence steps => simp only [move, alike.returned]
  | randomRange kind low high unit => simp only [move, alike.rangeDraw]
  | bernoulliTrial probability unit => simp only [move, alike.bernoulliTrial]
  | bernoulliFilter probability choices unit => simp only [move, alike.bernoulliFilter]
  | uniformChoice choices unit => simp only [move, alike.uniformChoice]
  | weightedChoice choices weights unit => simp only [move, alike.weightedChoice]
  | sample choices draws unit => simp only [move, alike.sample]
  | connective op operands | unary op operand => cases op <;> rfl
  | _ => rfl

end Tree

/-- A relation that every effect keeps, between trials that look alike where some names are read. -/
structure Bisimulation (names : List String) (relation : Trial → Trial → Prop) : Prop where
  looksAlike : ∀ {first second}, relation first second → first.LooksAlike names second
  effect : ∀ {first second}, relation first second →
    ∀ effect : Effect, relation (effect.apply first) (effect.apply second)

namespace Moment

variable {relation : Trial → Trial → Prop} {tree : Tree}

/-- Moments at which the same happens to the same nodes in progress, in related trials. -/
structure Matches (relation : Trial → Trial → Prop) (first second : Moment) : Prop where
  phase : first.phase = second.phase
  active : first.active = second.active
  trial : relation first.trial second.trial

/-- A node inside a script makes the same move in related trials. -/
theorem matches_resume (bisimulation : Bisimulation tree.lookedUp relation) {node : Tree}
    (inside : node ∈ tree.nodes) (values : List Value) (outer : List Activation)
    {first second : Trial} (related : relation first second) :
    Matches relation (resume ⟨node, values⟩ outer first) (resume ⟨node, values⟩ outer second) := by
  -- The move is the same, and so is its effect on both trials.
  have same := Tree.move_of_looksAlike (bisimulation.looksAlike related)
    (fun name looks => Tree.mem_lookedUp inside looks) values
  rw [resume, resume, same]
  cases node.move second values with
  | visit part => exact ⟨rfl, rfl, related⟩
  | complete value effect => exact ⟨rfl, rfl, bisimulation.effect related effect⟩
  | stop fault => exact ⟨rfl, rfl, related⟩

/-- Every step from a moment inside a script is matched by a step from a matching moment. -/
theorem matches_next? (bisimulation : Bisimulation tree.lookedUp relation)
    {first second later : Moment} (inside : Inside tree first)
    (matching : Matches relation first second) (step : first.next? = some later) :
    ∃ later', second.next? = some later' ∧ Matches relation later later' := by
  obtain ⟨phase, active, trial⟩ := first
  obtain ⟨phase', active', trial'⟩ := second
  obtain ⟨rfl, rfl, related⟩ := matching
  -- The relation shows both trials the same latch, which decides whether a node is entered.
  have latch := (bisimulation.looksAlike related).returned
  cases phase with
  | enter part =>
    cases step
    refine ⟨_, rfl, ?_⟩
    -- Both trials have returned, or neither has.
    simp only at latch
    rw [← latch]
    split
    · exact ⟨rfl, rfl, related⟩
    · exact matches_resume bisimulation (inside.entered part rfl) [] active related
  -- The same value is handed to the same node on both sides.
  | handOver value =>
    cases active with
    | nil => cases step
    | cons top outer =>
      cases step
      have within := inside.active top List.mem_cons_self
      exact ⟨_, rfl, matches_resume bisimulation within _ outer related⟩
  | stopped fault => cases step

/-- Every moment of an evaluation is matched by one of the evaluation in a related trial. -/
theorem matches_of_leads (bisimulation : Bisimulation tree.lookedUp relation)
    {first second : Trial} (related : relation first second) {moment : Moment}
    (reached : Leads (start tree first) moment) :
    ∃ moment', Leads (start tree second) moment' ∧ Matches relation moment moment' := by
  -- The induction is over the steps of the one evaluation, which the other one follows.
  induction reached with
  | refl => exact ⟨_, .refl, rfl, rfl, related⟩
  | tail before step ih =>
    obtain ⟨moment', reached', matching⟩ := ih
    obtain ⟨later', step', matching'⟩ :=
      matches_next? bisimulation (inside_of_leads before) matching step
    exact ⟨later', reached'.tail step', matching'⟩

/-- Only the outcome of an evaluation matches an outcome. -/
theorem outcome_of_matches {result : Except Fault Value × Trial} {trial : Trial} {moment : Moment}
    (reached : Leads (start tree trial) moment)
    (matching : Matches relation (outcome [] result) moment) :
    result.1 = ((evaluate tree).run trial).1 ∧ relation result.2 ((evaluate tree).run trial).2 := by
  -- A moment that matches an outcome is followed by nothing, so the evaluation ends there.
  have last : moment = outcome [] ((evaluate tree).run trial) := by
    rcases (leads_outcome reached).cases_head with same | ⟨later, step, -⟩
    · exact same
    · obtain ⟨phase, active, held⟩ := moment
      obtain ⟨rfl, rfl, -⟩ := matching
      obtain ⟨value | fault, after⟩ := result <;> cases step
  rw [last] at matching
  generalize (evaluate tree).run trial = result' at matching ⊢
  obtain ⟨phase, -, related⟩ := matching
  obtain ⟨value | fault, after⟩ := result <;> obtain ⟨value' | fault', after'⟩ := result' <;>
    cases phase <;> exact ⟨rfl, related⟩

end Moment

/-- In related trials a script gives the same value or the same fault, and leaves them related. -/
theorem Bisimulation.evaluate {relation : Trial → Trial → Prop} {tree : Tree}
    (bisimulation : Bisimulation tree.lookedUp relation) {first second : Trial}
    (related : relation first second) :
    ((evaluate tree).run first).1 = ((evaluate tree).run second).1 ∧
      relation ((evaluate tree).run first).2 ((evaluate tree).run second).2 := by
  -- The outcome of the one evaluation is matched by a moment of the other, which is its outcome.
  obtain ⟨moment, reached, matching⟩ :=
    Moment.matches_of_leads bisimulation related (Moment.follows tree [] first)
  exact Moment.outcome_of_matches reached matching

namespace Trial

/-- Trials of one name and policy with the same latches, in which some names have the same value. -/
structure AgreesOn (read : String → Prop) (first second : Trial) : Prop where
  name : first.name = second.name
  policy : first.policy = second.policy
  enabled : first.enabled = second.enabled
  returned : first.returned = second.returned
  lookup : ∀ name, read name → first.variables.lookup name = second.variables.lookup name

namespace AgreesOn

variable {read : String → Prop} {first second : Trial}

/-- A trial agrees with itself where one more name is assigned, on every other name. -/
theorem assign {name : String} (unread : ¬ read name) (value : Value) (trial : Trial) :
    AgreesOn read trial (trial.assign name value) where
  name := rfl
  policy := rfl
  enabled := rfl
  returned := rfl
  lookup other reads := by
    have differs : name ≠ other := by
      rintro rfl
      exact unread reads
    simp only [Trial.assign, Store.lookup_assign, if_neg differs]

/-- A draw depends on the name, the policy and the latch of a trial, and on no variable. -/
theorem drawsAlike (agrees : AgreesOn read first second) : DrawsAlike first second where
  hash salt := by simp only [hash, agrees.name, agrees.policy, agrees.enabled]
  fraction salt := by simp only [fraction, hash, agrees.name, agrees.policy, agrees.enabled]

/-- Every effect gives a name the same value on both sides, or sets the same latches. -/
theorem effect (agrees : AgreesOn read first second) (effect : Effect) :
    AgreesOn read (effect.apply first) (effect.apply second) := by
  -- Only an assignment changes what a name finds, and on both sides in the same way.
  obtain ⟨name, policy, enabled, returned, lookup⟩ := agrees
  cases effect with
  | none => exact ⟨name, policy, enabled, returned, lookup⟩
  | assign assigned value =>
    refine ⟨name, policy, enabled, returned, fun other reads => ?_⟩
    simp only [Effect.apply, Trial.assign, Store.lookup_assign, lookup other reads]
  | finish value =>
    simp only [Effect.apply]
    split
    · exact ⟨name, policy, rfl, rfl, lookup⟩
    · exact ⟨name, policy, enabled, rfl, lookup⟩

/-- Trials that agree on all names that a script looks up cannot be told apart by it. -/
theorem bisimulation {names : List String} (all : ∀ name ∈ names, read name) :
    Bisimulation names (AgreesOn read) where
  looksAlike agrees := { agrees.drawsAlike with
    returned := agrees.returned
    lookup := fun name member => agrees.lookup name (all name member) }
  effect agrees := agrees.effect

end AgreesOn
end Trial
end TrialScript
