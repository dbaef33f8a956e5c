import TrialScript.Proofs.Evaluation.Effects
import TrialScript.Proofs.Tree.Parts

/-! Every node that comes into progress is a node of the script, and so is every assignment made. -/

namespace TrialScript

namespace Move

variable {α : Type} {parts : List Tree}

/-- A move visits nothing but some parts. -/
def Within (parts : List Tree) : Move → Prop
  | .visit part => part ∈ parts
  | _ => True

/-- A visit stays within the parts if it goes to one of them. -/
@[simp] theorem within_visit (part : Tree) : (Move.visit part).Within parts ↔ part ∈ parts :=
  Iff.rfl

/-- Completing a node visits nothing. -/
@[simp] theorem within_complete (value : Value) (effect : Effect) :
    (Move.complete value effect).Within parts := trivial

/-- A check visits what may follow it. -/
theorem within_check {result : Except Fault α} {next : α → Move}
    (inside : ∀ found, (next found).Within parts) : (check result next).Within parts := by
  -- A fault visits nothing, and a result goes on with a move that stays within.
  cases result with
  | ok found => exact inside found
  | error fault => trivial

/-- Giving a result visits nothing. -/
@[simp] theorem within_give (result : Except Fault Value) : (give result).Within parts :=
  within_check fun _ => trivial

/-- A part behind a check is the only one that is visited. -/
theorem within_visitAfter {part : Tree} (member : part ∈ parts) (checked : Except Fault α) :
    (visitAfter part checked).Within parts :=
  within_check fun _ => member

/-- Visiting parts in turn visits those parts and what the last move visits. -/
theorem within_each {values : List Value} {last : Move} (inside : last.Within parts) :
    (each parts values last).Within parts := by
  -- The part at a position is one of the parts.
  unfold each
  split
  · exact List.mem_of_getElem? ‹_›
  · exact inside

/-- Settling visits operands. -/
theorem within_settle (decisive : Bool) (operands : List Tree) (values : List Value) :
    (settle decisive operands values).Within operands := by
  -- The next operand is visited unless the last value has decided.
  unfold settle
  split
  · exact within_each trivial
  · refine within_check fun holds => ?_
    split
    · trivial
    · exact within_each trivial

/-- Choosing visits guards and bodies. -/
theorem within_choose (clauses : List (Tree × Tree)) (values : List Value) :
    (choose clauses values).Within (Tree.cond clauses).parts := by
  -- The induction is on the clauses: a later guard or body is a part of the whole as well.
  induction clauses generalizing values with
  | nil => trivial
  | cons clause rest ih =>
    obtain ⟨guard, body⟩ := clause
    cases values with
    | nil => simp [choose, Tree.parts]
    | cons value values =>
      refine within_check fun holds => ?_
      split
      · cases values <;> simp [Tree.parts]
      · -- The parts of the later clauses stand behind this guard and this body.
        have later := ih values
        cases move : choose rest values with
        | visit part =>
          rw [move] at later
          exact List.mem_cons_of_mem _ (List.mem_cons_of_mem _ later)
        | _ => trivial

end Move

/-- A node visits nothing but its parts. -/
theorem Tree.within_move (tree : Tree) (trial : Trial) (values : List Value) :
    (tree.move trial values).Within tree.parts := by
  -- The cases follow the moves: none, one at a time, or one for each number of values.
  cases tree with
  | scalar | literal | lookup => trivial
  | array items => exact Move.within_each trivial
  | sequence steps =>
    simp only [move]
    split
    · trivial
    · exact Move.within_each trivial
  | cond clauses => exact Move.within_choose clauses values
  | connective op operands => cases op <;> exact Move.within_settle _ _ _
  | fold op operands => exact Move.within_check fun _ => Move.within_each (Move.within_give _)
  | unary op operand => cases op <;> simp only [move] <;> split <;> simp [parts]
  | sample choices draws unit =>
    simp only [move]
    split <;> split <;> simp [parts, Move.within_visitAfter]
  | _ =>
    -- The remaining nodes have a fixed number of parts.
    simp only [move]
    split <;> simp [parts, Move.within_visitAfter]

namespace Moment

/-- Everything that is entered or in progress is a node of a script. -/
structure Inside (tree : Tree) (moment : Moment) : Prop where
  entered : ∀ part, moment.phase = .enter part → part ∈ tree.nodes
  active : ∀ activation ∈ moment.active, activation.node ∈ tree.nodes

/-- A move of a node inside a script stays inside it. -/
theorem inside_resume {tree : Tree} {top : Activation} {outer : List Activation} {trial : Trial}
    (here : top.node ∈ tree.nodes) (around : ∀ activation ∈ outer, activation.node ∈ tree.nodes) :
    Inside tree (resume top outer trial) := by
  -- A visited part is inside because the node around it is; nothing else is entered.
  have visits := top.node.within_move trial top.values
  rw [resume]
  cases move : top.node.move trial top.values with
  | visit part =>
    rw [move] at visits
    refine ⟨?_, ?_⟩
    · rintro _ ⟨⟩
      exact Tree.part_mem_nodes here visits
    · simpa [after] using And.intro here around
  | complete value effect => exact ⟨by rintro _ ⟨⟩, around⟩
  | stop fault => exact ⟨by rintro _ ⟨⟩, by simp [after]⟩

/-- A step stays inside the script. -/
theorem inside_next? {tree : Tree} {moment later : Moment} (inside : Inside tree moment)
    (step : moment.next? = some later) : Inside tree later := by
  -- The node that is handed a value was in progress, so it is inside already.
  obtain ⟨phase, active, trial⟩ := moment
  obtain ⟨entered, around⟩ := inside
  cases phase with
  | enter part =>
    cases step
    -- After a return nothing comes into progress.
    split
    · exact ⟨by rintro _ ⟨⟩, around⟩
    · exact inside_resume (entered part rfl) around
  | handOver value =>
    cases active with
    | nil => cases step
    | cons top outer =>
      cases step
      obtain ⟨here, around⟩ := List.forall_mem_cons.mp around
      exact inside_resume here around
  | stopped fault => cases step

/-- Every moment of an evaluation is inside the script that is evaluated. -/
theorem inside_of_leads {tree : Tree} {trial : Trial} {moment : Moment}
    (reached : Leads (start tree trial) moment) : Inside tree moment := by
  -- The script is its own node, and every step stays inside.
  induction reached with
  | refl =>
    refine ⟨?_, by simp [start]⟩
    rintro _ ⟨⟩
    exact tree.mem_nodes_self
  | tail _ step ih => exact inside_next? ih step

/-- An evaluation assigns a name at one of its moments. -/
def Assigns (tree : Tree) (trial : Trial) (name : String) : Prop :=
  ∃ moment value, Leads (start tree trial) moment ∧ moment.effect = .assign name value

/-- An evaluation assigns only names that its script assigns somewhere. -/
theorem mem_assigned_of_assigns {tree : Tree} {trial : Trial} {name : String}
    (assigns : Assigns tree trial name) : name ∈ tree.assigned := by
  -- The node that assigns is in progress, so it is a node of the script.
  obtain ⟨moment, value, reached, effect⟩ := assigns
  rcases moment.effect_cases with quiet | ⟨given, top, outer, -, inProgress, has⟩
  · rw [quiet] at effect
    cases effect
  · have inside := (inside_of_leads reached).active top (inProgress ▸ List.mem_cons_self)
    rw [effect] at has
    generalize top.node = node at has inside
    cases has with
    | assign name part => exact List.mem_filterMap.mpr ⟨_, inside, rfl⟩

end Moment
end TrialScript
