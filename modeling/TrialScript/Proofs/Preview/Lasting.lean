import TrialScript.Proofs.Description.Lasting
import TrialScript.Proofs.Preview.Branches
import TrialScript.Proofs.Preview.Reached
import TrialScript.Proofs.Store.Everywhere

/-! Properties of descriptions that previews keep, in the results as in all that is recorded. -/

namespace TrialScript

/-- The calculations that a script makes itself, once its parts are described. -/
inductive Tree.Calculates : Arithmetic → Description → Description → Tree → List Description →
    Prop where
  | sides (op : Calculation) (left right : Description) (first second : Tree) :
      Calculates op.function left right (.binary (.calculate op) first second) [left, right]
  | fold {op : FoldOp} {operands : List Tree} {first total next : Description}
      {earlier later : List Description}
      (folded : earlier.foldlM (Description.combine op.function) first = .ok total) :
      Calculates op.function total next (.fold op operands) (first :: (earlier ++ next :: later))
  | negate (operand : Description) (tree : Tree) :
      Calculates .multiply operand (.atom (.int (-1))) (.unary .negate tree) [operand]

namespace Description.Composed

variable {holds : Description → Prop} (composed : Composed holds)

include composed

/-- What nothing is known of has every composed property. -/
theorem unknown : holds .unknown :=
  composed.scalar .null

/-- So have the two truth values. -/
theorem boolean : holds .boolean :=
  composed.chosen (by simp [composed.scalar])

/-- A field of a mapping keeps the property. -/
theorem describeField {object : Value} (here : holds (.object object)) (name : String) :
    Gives holds (TrialScript.describeField object name) := by
  -- A field that is not there is unknown, and so is one of something that is no mapping.
  unfold TrialScript.describeField
  split
  · next fields =>
    refine .ok ?_
    cases found : Table.lookup? name fields with
    | none => exact composed.unknown
    | some value => exact composed.field here found
  · split
    · exact .ok composed.unknown
    · exact .error _

/-- A part of a list or a mapping keeps the property. -/
theorem describePart {base key : Description} (here : holds base) :
    Gives holds (TrialScript.describePart base key) := by
  unfold TrialScript.describePart
  split
  · next items =>
    have each := composed.array.mp here
    -- Where nothing is chosen, any of the items is possible.
    have anyOf : holds (if items.isEmpty then .unknown else .oneOf items) := by
      split
      · exact composed.unknown
      · exact composed.chosen each
    dsimp only
    split
    · next position _ =>
      refine .bind (.any _) fun _ _ => ?_
      cases chosen : position.position?.bind fun index => items[index]? with
      | none => exact .ok anyOf
      | some item =>
        obtain ⟨index, -, inside⟩ := Option.bind_eq_some_iff.mp chosen
        exact .ok (each item (List.mem_of_getElem? inside))
    · exact .ok anyOf
  · exact composed.describeField here _
  · exact .ok composed.unknown

/-- Some of the described choices keep the property. -/
theorem describeChoices {limit : List Description → Value} {choices : Description}
    (numbered : ∀ items, ∃ number, limit items = .num number) (here : holds choices) :
    holds (TrialScript.describeChoices limit choices) := by
  -- Only a list of choices is taken as options; any other choices are unknown.
  unfold TrialScript.describeChoices
  split
  · next items =>
    obtain ⟨number, counted⟩ := numbered items
    rw [counted]
    exact composed.chosen (composed.array.mp here)
  · exact composed.unknown

/-- Unary operations keep the property, if the negative does. -/
theorem describeUnary {operand : Description} {op : UnaryOp} (here : holds operand)
    (negated : op = .negate → Gives holds (operand.combine .multiply (.atom (.int (-1))))) :
    Gives holds (TrialScript.describeUnary operand op) := by
  -- Only the negative calculates; the others keep, count or forget what they are given.
  cases op with
  | finish => exact .ok here
  | «not» => exact .ok composed.boolean
  | round => exact composed.round here
  | negate => exact negated rfl
  | length =>
    refine .ok ?_
    unfold describeLength
    split
    · exact composed.scalar _
    · exact composed.scalar _
    · exact composed.counted _
    · exact composed.unknown

/-- Folds keep the property, if every calculation that they come to does. -/
theorem describeFold {op : FoldOp} {operands : List Tree} {described : List Description}
    (each : ∀ part ∈ described, holds part)
    (calculated : ∀ {function left right},
      (Tree.fold op operands).Calculates function left right described → holds left →
        holds right → Gives holds (left.combine function right)) :
    Gives holds (TrialScript.describeFold op described) := by
  -- The first operand starts the fold, and the others are calculated with the total in turn.
  cases described with
  | nil => exact .ok composed.unknown
  | cons first rest =>
    obtain ⟨here, others⟩ := List.forall_mem_cons.mp each
    refine .foldlM_of here fun {earlier next later total} among folded holdsTotal => ?_
    subst among
    exact calculated (.fold folded) holdsTotal (others next (by simp))

/--
What a script makes of the descriptions of its parts keeps the property.

What is left open are its calculations, and the range of a drawn number.
-/
theorem made {store : Store Description} {tree : Tree} {described : List Description}
    (everywhere : store.Everywhere holds)
    (literal : ∀ value, tree = .literal value → holds (.ofLiteral value))
    (each : ∀ part ∈ described, holds part)
    (calculated : ∀ {function left right}, tree.Calculates function left right described →
      holds left → holds right → Gives holds (left.combine function right))
    (drawn : ∀ {kind low high unit least most}, tree = .randomRange kind low high unit →
      described = [least, most] → holds (describeRange kind least most)) :
    Gives holds (tree.made store described) := by
  -- The split follows the definition, and every case has the descriptions of its parts.
  unfold Tree.made
  split
  all_goals try simp only [List.forall_mem_cons, List.not_mem_nil, IsEmpty.forall_iff,
    implies_true, and_true] at each
  · exact .ok (composed.scalar _)
  · exact .ok (literal _ rfl)
  · exact .ok (composed.array.mpr each)
  · exact .ok (everywhere.get composed.unknown _)
  · -- The last of some steps is one of them.
    refine .ok ?_
    rw [List.getLastD_eq_getLast?]
    cases last : described.getLast? with
    | none => exact composed.unknown
    | some step => exact each step (List.mem_of_getLast? last)
  · exact calculated (.sides _ _ _ _ _) each.1 each.2
  · exact .ok composed.boolean
  · exact .ok composed.boolean
  · exact .ok composed.boolean
  · exact composed.describeFold each calculated
  · refine composed.describeUnary each fun same => ?_
    subst same
    exact calculated (.negate _ _) each (composed.scalar _)
  · exact .ok (drawn rfl rfl)
  · exact .ok (composed.chosen (by simp [composed.scalar]))
  · exact .ok (composed.describeChoices (fun items => ⟨_, rfl⟩) each)
  · exact .ok (composed.describeChoices (fun items => ⟨_, rfl⟩) each)
  · exact .ok (composed.describeChoices (fun items => ⟨_, rfl⟩) each)
  · refine .ok ?_
    split
    · exact composed.describeChoices (fun items => ⟨_, rfl⟩) each
    · exact composed.unknown
  · next draws =>
    refine .ok ?_
    cases draws.number? with
    | none => exact composed.unknown
    | some limit => exact composed.chosen (composed.array.mp each.1)
  · exact composed.describePart each.1
  · exact .ok composed.unknown

end Description.Composed

section Previews

variable {holds : Description → Prop} {store : Store Description}

namespace Description.KeptByMerging

variable (merging : KeptByMerging holds)

include merging

/-- An assignment records something that has the property. -/
theorem describe {name : String} {given : Description} (here : holds given) :
    Maintains (Store.Everywhere holds) holds (TrialScript.describe name given) := by
  -- What is known of the name has the property, and so has what it is merged into.
  refine .bind .get fun symbols everywhere => ?_
  have known : holds (symbols.get name .unknown) := everywhere.get merging.unknown name
  refine .bind (.lift (merging.merge known here)) fun merged holdsMerged => ?_
  exact .bind (.modify fun _ everywhere => everywhere.assign name holdsMerged) fun _ _ =>
    .done holdsMerged

/-- Joins record something that has the property. -/
theorem assignJoined {collected : Table (List Description)}
    (each : ∀ entry ∈ collected, ∀ description ∈ entry.2, holds description) :
    Maintains (Store.Everywhere holds) (fun _ => True) (TrialScript.assignJoined collected) := by
  -- The induction is on the collected names, each of which is assigned in turn.
  induction collected with
  | nil => exact .done trivial
  | cons entry rest ih =>
    obtain ⟨here, others⟩ := List.forall_mem_cons.mp each
    refine .bind (.lift (merging.join here)) fun joined holdsJoined => ?_
    exact .bind (.modify fun _ everywhere => everywhere.assign _ holdsJoined) fun _ _ => ih others

end Description.KeptByMerging

/-- Items are described by descriptions with the property, if each that is come to is. -/
theorem previewItems_leaves {items : List Tree} (everywhere : store.Everywhere holds)
    (each : ∀ {earlier item later between}, items = earlier ++ item :: later →
      Visited earlier store between → between.Everywhere holds →
        Leaves (Store.Everywhere holds) holds (preview item) between) :
    Leaves (Store.Everywhere holds) (fun described => ∀ part ∈ described, holds part)
      (previewItems items) store := by
  -- The induction is on the items, from the descriptions that the one before has left.
  induction items generalizing store with
  | nil => exact ⟨everywhere, .ok fun _ member => absurd member List.not_mem_nil⟩
  | cons item rest ih =>
    rw [previewItems]
    have here := each (List.nil_append _).symm (.nil store) everywhere
    refine here.bind fun first after ran left holdsFirst => ?_
    have others := ih left fun {earlier next later between} among visited held => by
      have whole : item :: rest = (item :: earlier) ++ next :: later := congrArg _ among
      exact each whole (.cons ran visited) held
    exact others.bind fun described last _ left holdsOthers =>
      ⟨left, .ok (List.forall_mem_cons.mpr ⟨holdsFirst, holdsOthers⟩)⟩

/-- A branch that leaves the property assigns only what has it, and leaves the rest as it was. -/
theorem inBranch_leaves {branch : Survey Description} (everywhere : store.Everywhere holds)
    (inside : Leaves (Store.Everywhere holds) holds branch store.push) :
    Leaves (Store.Everywhere holds) (fun assigned => ∀ entry ∈ assigned, holds entry.2)
      (inBranch branch) store := by
  -- A branch works on a layer of its own, so what it leaves there says nothing about the store.
  obtain ⟨within, -⟩ := inside
  unfold Leaves
  rw [run_inBranch]
  cases ran : branch.run store.push with
  | mk outcome inner =>
    rw [ran] at within
    cases outcome with
    | ok given => exact ⟨everywhere, .ok fun entry member => within.of_mem_locals member⟩
    | error fault => exact ⟨everywhere, .error fault⟩

/-- Clauses assign only what has the property, if guards and bodies that are come to leave it. -/
theorem previewClauses_leaves {clauses : List (Tree × Tree)} (everywhere : store.Everywhere holds)
    (guards : ∀ {earlier guard body later branches between},
      clauses = earlier ++ (guard, body) :: later → Gathered earlier store branches between →
        between.Everywhere holds → Leaves (Store.Everywhere holds) holds (preview guard) between)
    (bodies : ∀ {earlier guard body later branches between decided present},
      clauses = earlier ++ (guard, body) :: later → Gathered earlier store branches between →
        (preview guard).run between = (.ok decided, present) → present.Everywhere holds →
          Leaves (Store.Everywhere holds) holds (preview body) present.push) :
    Leaves (Store.Everywhere holds)
      (fun branches => ∀ branch ∈ branches, ∀ entry ∈ branch, holds entry.2)
      (previewClauses clauses) store := by
  -- The induction is on the clauses, from the descriptions that the guard before has left.
  induction clauses generalizing store with
  | nil => exact ⟨everywhere, .ok fun _ member => absurd member List.not_mem_nil⟩
  | cons clause rest ih =>
    obtain ⟨guard, body⟩ := clause
    rw [previewClauses]
    have here := guards (List.nil_append _).symm (.nil store) everywhere
    refine here.bind fun decided present guarded held _ => ?_
    have inside := bodies (List.nil_append _).symm (.nil store) guarded held
    refine (inBranch_leaves held inside).bind fun branch after branched _ holdsBranch => ?_
    obtain ⟨given, inner, ran, -, rfl⟩ := inBranch_ok branched
    have whole {earlier later : List (Tree × Tree)} (among : rest = earlier ++ later) :
        (guard, body) :: rest = ((guard, body) :: earlier) ++ later := congrArg _ among
    have others := ih held (fun among gathered => guards (whole among) (.cons guarded ran gathered))
      (fun among gathered => bodies (whole among) (.cons guarded ran gathered))
    exact others.bind fun branches last _ left holdsOthers =>
      ⟨left, .ok (List.forall_mem_cons.mpr ⟨holdsBranch, holdsOthers⟩)⟩

/-- What is collected of a name was assigned to it by some branch. -/
theorem forall_collected {branches : List (Table Description)}
    (each : ∀ branch ∈ branches, ∀ entry ∈ branch, holds entry.2) :
    ∀ entry ∈ branches.foldl collectBranch [], ∀ description ∈ entry.2, holds description := by
  rintro ⟨name, descriptions⟩ member description inside
  -- A name is collected once, with its entries of all branches.
  have found := Table.lookup?_of_mem (nodup_names_collected branches) member
  rw [lookup?_collected] at found
  split at found
  · cases found
  · cases found
    obtain ⟨branch, ofBranch, entry⟩ := List.mem_flatMap.mp inside
    exact each branch ofBranch _ (Table.mem_entriesOf.mp entry)

/--
A preview keeps a property that merging keeps, if everything that it comes to makes it.

What is made are the descriptions of those scripts that neither assign nor branch themselves, from
descriptions with the property. Also where the preview stops, all that is recorded has it.
-/
theorem preview_leaves {tree : Tree} (merging : Description.KeptByMerging holds)
    (everywhere : store.Everywhere holds)
    (makes : ∀ {depth node inner described after}, Reaches depth tree store node inner →
      inner.Everywhere holds →
        (previewItems (node.surveyed inner)).run inner = (.ok described, after) →
          (∀ part ∈ described, holds part) → Gives holds (node.made inner described)) :
    Leaves (Store.Everywhere holds) holds (preview tree) store := by
  -- The induction is over the script, and what a part comes to, the script comes to.
  induction tree using Tree.induction_parts generalizing store with
  | step tree ih =>
    have items := previewItems_leaves everywhere
      fun {earlier part later between} among visited held =>
        ih part (Tree.mem_parts_of_mem_surveyed (among ▸ List.mem_append_cons_self)) held
          fun reached => makes (.part among visited reached)
    cases tree with
    | assign name value =>
      have valued := ih value List.mem_cons_self everywhere
        fun reached => makes (.part (List.nil_append _).symm (.nil store) reached)
      rw [preview]
      exact valued.bind fun given after _ left holdsGiven => merging.describe holdsGiven after left
    -- The guards and bodies come first, and then what they have assigned is joined.
    | cond clauses =>
      have sides := previewClauses_leaves everywhere
        (fun {earlier guard body later branches between} (among : clauses = _) gathered held => by
          subst among
          exact ih guard (Tree.guard_mem_parts List.mem_append_cons_self) held
            fun reached => makes (.guard gathered reached))
        (fun {earlier guard body later _ _ _ _} among gathered guarded held => by
          subst among
          exact ih body (Tree.body_mem_parts List.mem_append_cons_self) held.push
            fun reached => makes (.body gathered guarded reached))
      rw [preview]
      refine sides.bind fun branches middle _ left assigned => ?_
      have joins := merging.assignJoined (forall_collected assigned) middle left
      exact Leaves.bind joins fun _ after _ left _ => ⟨left, .ok merging.unknown⟩
    -- Every other node makes its description from those of the parts that it visits.
    | _ =>
      unfold Leaves
      rw [run_preview rfl (by simp)]
      exact items.bind fun described after listed left each =>
        ⟨left, makes (.here _ _) everywhere listed each⟩

/-- A preview keeps a property that lasts, if the literals of the script have it. -/
theorem Description.Lasting.preview {bound : Value → Prop} (lasting : Lasting bound holds)
    {tree : Tree} (literals : ∀ value, .literal value ∈ tree.nodes → holds (.ofLiteral value)) :
    Maintains (Store.Everywhere holds) holds (TrialScript.preview tree) := by
  intro symbols everywhere
  refine preview_leaves lasting.keptByMerging everywhere fun reached held _ each => ?_
  refine lasting.composed.made held (fun value same => ?_) each (fun _ => lasting.combine) ?_
  · exact literals value (same ▸ reached.mem_nodes)
  · -- A range of two exact numbers has them as its bounds.
    intro kind low high unit least most _ _
    unfold describeRange
    split
    · exact lasting.range.mpr ⟨lasting.number _, lasting.number _⟩
    · exact lasting.composed.unknown

end Previews

end TrialScript
