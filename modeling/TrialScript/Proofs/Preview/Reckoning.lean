import TrialScript.Proofs.Description.Reckoning
import TrialScript.Proofs.Preview.Lasting

/-! A preview stops only at steps of arithmetic that have no result. -/

namespace TrialScript

open Description (Numeric)

section Steps

/-- The steps of folding further descriptions into one. -/
inductive Folds (function : Arithmetic) (step : Reckoning) : Description → List Description → Prop where
  | here {total next : Description} {rest : List Description}
      (combines : total.Combines function next step) : Folds function step total (next :: rest)
  | later {total next middle : Description} {rest : List Description}
      (gave : total.combine function next = .ok middle) (folds : Folds function step middle rest) :
      Folds function step total (next :: rest)

/-- The steps that a script makes itself, once its parts are described. -/
def Tree.Asks (step : Reckoning) : Tree → List Description → Prop
  | .binary (.calculate op) _ _, [left, right] => left.Combines op.function right step
  | .fold op _, first :: rest => Folds op.function step first rest
  | .unary .negate _, [operand] => operand.Combines .multiply (.atom (.int (-1))) step
  | .unary .round _, [operand] => operand.Rounds step
  | .index _ _, [.array _, key] => ∃ n, key.number? = some n ∧ step = .convert n
  | _, _ => False

variable {total : Description} {operands : List Description} {store : Store Description}

/-- Folding makes the steps of every combination. -/
theorem makes_fold (function : Arithmetic) (numeric : total.Numeric)
    (each : ∀ operand ∈ operands, operand.Numeric) :
    Makes (fun step => Folds function step total operands)
      (operands.foldlM (Description.combine function) total) := by
  -- The induction is on the operands, from any description of those before.
  induction operands generalizing total with
  | nil => exact .still _ (by rintro step ⟨⟩)
  | cons next rest ih =>
    obtain ⟨here, others⟩ := List.forall_mem_cons.mp each
    rw [List.foldlM_cons]
    refine ((Description.makes_combine numeric here).chain fun middle gave =>
      ih (Numeric.lasting.combine numeric here middle gave) others).congr fun step => ?_
    -- A step is one of the first combination, or of the fold that goes on from what it gave.
    constructor
    · rintro (combines | ⟨middle, gave, folds⟩)
      · exact .here combines
      · exact .later gave folds
    · rintro (combines | ⟨gave, folds⟩)
      · exact .inl combines
      · exact .inr ⟨_, gave, folds⟩

/-- A part of a described list converts the position, where that is an exact number. -/
theorem makes_part {base key : Description} (numeric : base.Numeric) (left right : Tree) :
    Makes (fun step => Tree.Asks step (.index left right) [base, key]) (describePart base key) := by
  unfold describePart
  split
  · next items =>
    cases exact : key.number? with
    | none =>
      refine .still _ ?_
      rintro step ⟨n, known, -⟩
      cases exact.symm.trans known
    | some n =>
      have converts : Makes (fun step => step = .convert n) (discard n.toFloat) := .single rfl _
      refine (converts.map fun _ => ?_).congr fun step => ?_
      · -- Any position may be outside the list, and then any item is possible.
        cases n.position?.bind fun index => items[index]? <;> exact .ok _
      · refine ⟨fun same => ⟨n, exact, same⟩, ?_⟩
        rintro ⟨n, known, same⟩
        cases exact.symm.trans known
        exact same
  · -- What is described as an object is a mapping, so a field is there or not.
    obtain ⟨fields, rfl⟩ := numeric.meets
    exact .ok _
  · next others _ =>
    cases base with
    | array items => exact (others items rfl).elim
    | _ => exact .ok _

/-- What a script makes of the descriptions of its parts takes the steps that it asks for. -/
theorem makes_made {tree : Tree} {described : List Description}
    (each : ∀ part ∈ described, part.Numeric) :
    Makes (fun step => tree.Asks step described) (tree.made store described) := by
  -- The split follows the definition; what is put together without arithmetic asks for nothing.
  unfold Tree.made
  split
  all_goals try exact .ok _
  all_goals try simp only [List.forall_mem_cons, List.not_mem_nil, IsEmpty.forall_iff,
    implies_true, and_true] at each
  · exact Description.makes_combine each.1 each.2
  · -- A comparison asks for nothing, and a calculation has two sides.
    next op left right apart =>
    refine .still _ fun step asks => ?_
    unfold Tree.Asks at asks
    split at asks <;> grind
  · next op operands =>
    cases described with
    | nil => exact .ok _
    | cons first rest =>
      obtain ⟨here, others⟩ := List.forall_mem_cons.mp each
      exact makes_fold op.function here others
  · next op _ operand =>
    cases op with
    | negate => exact Description.makes_combine each (.atom trivial)
    | round => exact Description.makes_round each
    | finish | «not» | length => exact .ok _
  · exact makes_part each.1 _ _
  · -- Where the parts are not as many as they should be, nothing is asked for.
    refine .still _ fun step asks => ?_
    unfold Tree.Asks at asks
    split at asks <;> grind

end Steps

mutual

/-- Previewing a script from some variables comes to a step of arithmetic. -/
inductive Reckons (step : Reckoning) : Tree → Store Description → Prop where
  | own {tree : Tree} {before after : Store Description} {described : List Description}
      (listed : (previewItems (tree.surveyed before)).run before = (.ok described, after))
      (asks : tree.Asks step described) : Reckons step tree before
  | inside {tree : Tree} {store : Store Description}
      (among : ReckonsAmong step (tree.surveyed store) store) : Reckons step tree store
  | cond {clauses : List (Tree × Tree)} {store : Store Description}
      (clause : ReckonsClauses step clauses store) : Reckons step (.cond clauses) store

/-- Previewing scripts in turn comes to a step of arithmetic. -/
inductive ReckonsAmong (step : Reckoning) : List Tree → Store Description → Prop where
  | first {part : Tree} {rest : List Tree} {store : Store Description}
      (reckons : Reckons step part store) : ReckonsAmong step (part :: rest) store
  | later {part : Tree} {rest : List Tree} {store middle : Store Description} {found : Description}
      (ran : (preview part).run store = (.ok found, middle))
      (among : ReckonsAmong step rest middle) : ReckonsAmong step (part :: rest) store

/-- Previewing clauses in turn comes to a step of arithmetic. -/
inductive ReckonsClauses (step : Reckoning) : List (Tree × Tree) → Store Description → Prop where
  | guard {guard body : Tree} {rest : List (Tree × Tree)} {store : Store Description}
      (reckons : Reckons step guard store) : ReckonsClauses step ((guard, body) :: rest) store
  | body {guard body : Tree} {rest : List (Tree × Tree)} {store middle : Store Description}
      {decided : Description} (guarded : (preview guard).run store = (.ok decided, middle))
      (reckons : Reckons step body middle.push) : ReckonsClauses step ((guard, body) :: rest) store
  | later {guard body : Tree} {rest : List (Tree × Tree)} {store middle after : Store Description}
      {decided : Description} {branch : Table Description}
      (guarded : (preview guard).run store = (.ok decided, middle))
      (branched : (inBranch (preview body)).run middle = (.ok branch, after))
      (clause : ReckonsClauses step rest after) : ReckonsClauses step ((guard, body) :: rest) store

end

section Previews

variable {store : Store Description}

/-- A preview that stops only at the steps that it comes to. -/
def Tree.Reckoned (tree : Tree) : Prop :=
  ∀ {store : Store Description}, store.Everywhere Numeric →
    Makes (fun step => Reckons step tree store) ((preview tree).run store).1

/-- Every preview keeps all descriptions numeric. -/
theorem numeric_preview (tree : Tree) :
    Maintains (Store.Everywhere Numeric) Numeric (preview tree) :=
  Numeric.lasting.preview fun value _ => Numeric.ofLiteral value

/-- Previewing parts in turn takes the steps of all of them. -/
theorem makes_previewItems {parts : List Tree} (each : ∀ part ∈ parts, part.Reckoned)
    (numeric : store.Everywhere Numeric) :
    Makes (fun step => ReckonsAmong step parts store) ((previewItems parts).run store).1 := by
  -- The induction is on the parts, from the variables that the part before left.
  induction parts generalizing store with
  | nil => exact .still _ (by rintro step ⟨⟩)
  | cons part rest ih =>
    obtain ⟨here, others⟩ := List.forall_mem_cons.mp each
    rw [previewItems]
    have onward (found : Description) (after : Store Description)
        (ran : (preview part).run store = (.ok found, after)) :
        Makes (fun step => ReckonsAmong step rest after)
          ((previewItems rest >>= fun described => pure (found :: described)).run after).1 :=
      (ih others ((numeric_preview part).of_ran numeric ran).1).run_map fun _ _ _ => .ok _
    refine ((here numeric).run_bind onward).congr fun step => ?_
    constructor
    · rintro (reckons | ⟨found, after, ran, among⟩)
      · exact .first reckons
      · exact .later ran among
    · rintro (reckons | ⟨ran, among⟩)
      · exact .inl reckons
      · exact .inr ⟨_, _, ran, among⟩

/-- A branch takes the steps that it takes on a layer of its own. -/
theorem makes_inBranch {branch : Survey Description} {steps : Reckoning → Prop}
    (within : Makes steps (branch.run store.push).1) :
    Makes steps ((inBranch branch).run store).1 := by
  -- The outcome of a branch is its own, with what it assigned instead of what it gives.
  have same : ((inBranch branch).run store).1 =
      (branch.run store.push).1 >>= fun _ => .ok (branch.run store.push).2.locals := by
    rw [run_inBranch]
    cases branch.run store.push with
    | mk outcome inner => cases outcome <;> rfl
  rw [same]
  exact within.map fun _ => .ok _

/-- Previewing clauses in turn takes the steps of their guards and bodies. -/
theorem makes_previewClauses {clauses : List (Tree × Tree)}
    (each : ∀ clause ∈ clauses, clause.1.Reckoned ∧ clause.2.Reckoned)
    (numeric : store.Everywhere Numeric) :
    Makes (fun step => ReckonsClauses step clauses store) ((previewClauses clauses).run store).1 := by
  -- The induction is on the clauses, from the variables that the guard before left.
  induction clauses generalizing store with
  | nil => exact .still _ (by rintro step ⟨⟩)
  | cons clause rest ih =>
    obtain ⟨guard, body⟩ := clause
    obtain ⟨⟨guardReckoned, bodyReckoned⟩, others⟩ := List.forall_mem_cons.mp each
    -- The body runs on a layer above the variables that the guard left, and changes none below.
    have further {middle : Store Description} (left : middle.Everywhere Numeric)
        (branch : Table Description) (after : Store Description)
        (branched : (inBranch (preview body)).run middle = (.ok branch, after)) :
        Makes (fun step => ReckonsClauses step rest after)
          ((previewClauses rest >>= fun branches => pure (branch :: branches)).run after).1 := by
      obtain ⟨_, _, -, -, rfl⟩ := inBranch_ok branched
      exact (ih others left).run_map fun _ _ _ => .ok _
    have onward (decided : Description) (middle : Store Description)
        (guarded : (preview guard).run store = (.ok decided, middle)) :=
      have left := ((numeric_preview guard).of_ran numeric guarded).1
      (makes_inBranch (bodyReckoned left.push)).run_bind (further left)
    rw [previewClauses]
    refine ((guardReckoned numeric).run_bind onward).congr fun step => ?_
    constructor
    · rintro (reckons | ⟨decided, middle, guarded, reckons | ⟨branch, after, branched, clause⟩⟩)
      · exact .guard reckons
      · exact .body guarded reckons
      · exact .later guarded branched clause
    · rintro (reckons | ⟨guarded, reckons⟩ | ⟨guarded, branched, clause⟩)
      · exact .inl reckons
      · exact .inr ⟨_, _, guarded, .inl reckons⟩
      · exact .inr ⟨_, _, guarded, .inr ⟨_, _, branched, clause⟩⟩

/-- Joining described branches takes no step. -/
theorem makes_assignJoined (store : Store Description) {collected : Table (List Description)}
    (each : ∀ entry ∈ collected, ∀ description ∈ entry.2, description.Numeric) :
    Makes (fun _ => False) ((assignJoined collected).run store).1 := by
  -- The induction is on the collected names, each of which is assigned in turn.
  induction collected generalizing store with
  | nil => exact .ok _
  | cons entry rest ih =>
    obtain ⟨here, others⟩ := List.forall_mem_cons.mp each
    obtain ⟨joined, made, -⟩ := Numeric.hereditary.join here
    rw [assignJoined, made]
    exact ih _ others

/-- An assignment takes no step of its own. -/
theorem makes_describe {name : String} {given : Description} (numeric : store.Everywhere Numeric)
    (here : given.Numeric) : Makes (fun _ => False) ((describe name given).run store).1 := by
  -- Merging numeric descriptions cannot stop, so the assignment is a result.
  have known : (store.get name .unknown).Numeric := numeric.get Numeric.hereditary.unknown name
  obtain ⟨merged, made, -⟩ := Numeric.hereditary.merge known here
  have described : ((describe name given).run store).1 =
      (Description.merge (store.get name .unknown) given >>= fun merged => .ok merged) := by
    rw [describe, Stateful.run_bind_fst, Stateful.run_get]
    exact Stateful.run_bind_fst ..
  rw [described, made]
  exact .ok merged

/-- What neither assigns nor branches takes the steps of its surveyed parts and its own. -/
theorem makes_previewParts {tree : Tree} (named : tree.ownName? = none)
    (plain : ∀ clauses, tree ≠ .cond clauses) (parts : ∀ part ∈ tree.parts, part.Reckoned)
    (numeric : store.Everywhere Numeric) :
    Makes (fun step => Reckons step tree store) ((preview tree).run store).1 := by
  have among : Makes (fun step => ReckonsAmong step (tree.surveyed store) store)
      ((previewItems (tree.surveyed store)).run store).1 :=
    makes_previewItems (fun part member => parts part (Tree.mem_parts_of_mem_surveyed member)) numeric
  -- The parts have numeric descriptions, so what is made of them stops only at its own steps.
  have own (described : List Description) (after : Store Description)
      (listed : (previewItems (tree.surveyed store)).run store = (.ok described, after)) :
      Makes (fun step => tree.Asks step described)
        ((liftM (tree.made store described) : Survey Description).run after).1 := by
    have kept : Leaves (Store.Everywhere Numeric) (fun described => ∀ part ∈ described, part.Numeric)
        (previewItems (tree.surveyed store)) store :=
      previewItems_leaves numeric fun _ _ => numeric_preview _ _
    exact makes_made (kept.of_ran listed).2
  rw [run_preview named plain]
  refine (among.run_bind own).congr fun step => ?_
  constructor
  · rintro (among | ⟨described, after, listed, asks⟩)
    · exact .inside among
    · exact .own listed asks
  · intro reckons
    cases reckons with
    | own listed asks => exact .inr ⟨_, _, listed, asks⟩
    | inside among => exact .inl among
    | cond clause => exact absurd rfl (plain _)

/-- Every preview stops only at the steps that it comes to. -/
theorem reckoned (tree : Tree) : tree.Reckoned := by
  -- The induction is over the script; only assignments and conditions record anything themselves.
  induction tree using Tree.induction_parts with
  | step tree ih =>
    intro store numeric
    cases tree with
    | assign name value =>
      have given := ih value List.mem_cons_self numeric
      rw [preview]
      refine (given.run_map fun found after ran => ?_).congr fun step => ?_
      · obtain ⟨left, here⟩ := (numeric_preview value).of_ran numeric ran
        exact makes_describe left here
      · refine ⟨fun reckons => .inside (.first reckons), ?_⟩
        rintro (⟨_, ⟨⟩⟩ | (reckons | ⟨_, ⟨⟩⟩) | _)
        exact reckons
    | cond clauses =>
      have gathered := makes_previewClauses (fun clause member =>
        ⟨ih _ (Tree.guard_mem_parts member), ih _ (Tree.body_mem_parts member)⟩) numeric
      rw [preview]
      refine (gathered.run_map fun branches after ran => ?_).congr fun step => ?_
      · -- What the branches assigned is numeric, so it joins.
        have assigned : Leaves (Store.Everywhere Numeric)
            (fun branches => ∀ branch ∈ branches, ∀ entry ∈ branch, entry.2.Numeric)
            (previewClauses clauses) store :=
          previewClauses_leaves numeric (fun _ _ => numeric_preview _ _)
            fun _ _ _ held => numeric_preview _ _ held.push
        have joins := makes_assignJoined after (forall_collected (assigned.of_ran ran).2)
        exact joins.run_map fun _ _ _ => .ok _
      · refine ⟨.cond, ?_⟩
        rintro (⟨_, ⟨⟩⟩ | ⟨⟨⟩⟩ | clause)
        exact clause
    | _ => exact makes_previewParts rfl (by simp) ih numeric

/-- Describing the variables of a script takes the steps of its preview. -/
theorem makes_inspectTree (tree : Tree) (inputs : Inputs Description)
    (numeric : inputs.symbols.Everywhere Numeric) :
    Makes (fun step => Reckons step tree inputs.symbols) (inspectTree tree inputs) := by
  -- What is listed is read off the store and takes no step.
  have listed : inspectTree tree inputs = ((preview tree).run inputs.symbols).1 >>= fun _ =>
      .ok ((preview tree).run inputs.symbols).2.toTable := by
    unfold inspectTree
    cases (preview tree).run inputs.symbols with
    | mk outcome after => cases outcome <;> rfl
  rw [listed]
  exact (reckoned tree numeric).map fun _ => .ok _

end Previews

/--
A preview without inputs only stops at arithmetic between exact numbers.

It describes all variables exactly if every step that it comes to is defined, and a fault is that
of one of those steps. Descriptions without numbers to calculate with give nothing known instead.
-/
theorem succeeds_inspect {script : Value} {tree : Tree} (parsed : Tree.parse script = .ok tree) :
    (Succeeds (inspect script (.ok .none)) ↔
      ∀ step, Reckons step tree (.ofBase .empty) → step.Defined) ∧
    (∀ fault, inspect script (.ok .none) = .error fault → fault.kind ∈ numericFaults ∧
      ∃ step, Reckons step tree (.ofBase .empty) ∧ step.check = .error fault) ∧
    ∀ (function : Arithmetic) (left right : Description), left.Numeric → right.Numeric →
      (∀ step, ¬ left.Combines function right step) →
        ∃ found, left.combine function right = .ok found ∧ found.Blank := by
  -- Without inputs there is nothing in the store that could fail to be numeric.
  have empty : (Store.ofBase .empty : Store Description).Everywhere Numeric :=
    ⟨trivial, fun _ member => absurd member List.not_mem_nil⟩
  have makes : Makes (fun step => Reckons step tree (.ofBase .empty))
      (inspect script (.ok .none)) := by
    rw [inspect, parsed]
    exact makes_inspectTree tree .none empty
  refine ⟨makes.succeeds_iff, fun fault stopped => ?_, fun function left right => ?_⟩
  · obtain ⟨step, reckons, failed⟩ := makes.stops fault stopped
    exact ⟨step.failsOnly_check fault failed, step, reckons, failed⟩
  · exact Description.blank_combine

/-- The remainder of one over zero is a step that is not defined, so its preview stops. -/
theorem succeeds_inspect_infinite :
    let number (n : Int) : Value := .int n
    let quotient : Value := .dict [("op", .str "/"), ("left", number 1), ("right", number 0)]
    let script : Value := .dict [("op", .str "%"), ("left", quotient), ("right", number 2)]
    let infinite : Tree :=
      .binary (.calculate .divide) (.scalar (.num (.int 1))) (.scalar (.num (.int 0)))
    let tree : Tree := .binary (.calculate .remainder) infinite (.scalar (.num (.int 2)))
    let step : Reckoning := .apply .remainder (.float (.infinite false)) (.int 2)
    Tree.parse script = .ok tree ∧ Reckons step tree (.ofBase .empty) ∧ ¬ step.Defined ∧
      ¬ Succeeds (inspect script (.ok .none)) ∧
      ∃ fault, inspect script (.ok .none) = .error fault ∧ fault.kind ∈ numericFaults := by
  intro number quotient script infinite tree step
  have parsed : Tree.parse script = .ok tree := rfl
  -- One over zero is described as an exact number, namely an infinite one.
  have fits : (Number.int 1).Fits := Nat.lt_of_lt_of_le (by decide : 1 < 3) (by decide +kernel)
  have divided : Description.combine .divide (.ofNumber (.int 1)) (.ofNumber (.int 0)) =
      .ok (.ofNumber (.float (.infinite false))) := by
    rw [Description.combine_ofNumber, Arithmetic.apply, Number.divide_by_zero rfl fits]
    rfl
  have gave (store : Store Description) : (preview infinite).run store =
      (.ok (.ofNumber (.float (.infinite false))), store) := by
    have calculates : preview infinite =
        liftM (Description.combine .divide (.ofNumber (.int 1)) (.ofNumber (.int 0))) := by
      simp only [infinite, preview]
      rfl
    rw [calculates, divided]
    rfl
  -- The remainder is surveyed after its operands, whose descriptions are these.
  have listed (store : Store Description) : (previewItems (tree.surveyed store)).run store =
      (.ok [.ofNumber (.float (.infinite false)), .ofNumber (.int 2)], store) := by
    rw [show tree.surveyed store = [infinite, .scalar (.num (.int 2))] from rfl]
    simp only [previewItems, Stateful.run_bind, gave, preview]
    rfl
  have reckons : Reckons step tree (.ofBase .empty) :=
    .own (listed _) (.low (.number _) (.number _))
  have undefined : ¬ step.Defined := by
    rintro (zero | ⟨exact, -⟩ | ⟨-, -, finite⟩)
    · cases zero
    · cases exact
    · cases finite rfl
  -- Were the script inspected, every step it reckons would be defined.
  have stops : ¬ Succeeds (inspect script (.ok .none)) := fun found =>
    undefined ((succeeds_inspect parsed).1.mp found step reckons)
  refine ⟨parsed, reckons, undefined, stops, ?_⟩
  cases outcome : inspect script (.ok .none) with
  | ok entries => exact (stops ⟨entries, outcome⟩).elim
  | error fault => exact ⟨fault, rfl, ((succeeds_inspect parsed).2.1 fault outcome).1⟩

end TrialScript
