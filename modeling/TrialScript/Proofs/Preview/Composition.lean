import TrialScript.Preview
import TrialScript.Proofs.Stateful
import TrialScript.Proofs.Tree.Parts

/-! A preview describes the parts of a script in order, and makes its own description from theirs. -/

namespace TrialScript

/-- Whether previewing a script gives the description of a list. -/
def describesList (tree : Tree) (store : Store Description) : Bool :=
  match (preview tree).run store with
  | (.ok (.array _), _) => true
  | _ => false

/-- The parts that a preview visits without a layer of their own, in order. -/
def Tree.surveyed (store : Store Description) : Tree → List Tree
  | .scalar _ | .literal _ | .lookup _ | .cond _ | .bernoulliTrial _ _ => []
  | .array items => items
  | .assign _ value => [value]
  | .sequence steps => steps
  | .binary _ left right => [left, right]
  | .connective _ operands => operands
  | .fold _ operands => operands
  | .unary _ operand => [operand]
  | .randomRange _ low high _ => [low, high]
  | .bernoulliFilter _ choices _ => [choices]
  | .uniformChoice choices _ => [choices]
  | .weightedChoice choices _ _ => [choices]
  | .sample choices draws _ =>
    if draws.isNull || !describesList choices store then [choices] else [choices, draws]
  | .index base key => [base, key]
  | .includes collection item => [collection, item]

/-- What a preview visits on the same layer is a part of the script. -/
theorem Tree.mem_parts_of_mem_surveyed {part tree : Tree} {store : Store Description}
    (member : part ∈ tree.surveyed store) : part ∈ tree.parts := by
  -- Each operation surveys its first parts, and a sample perhaps one less.
  cases tree with
  | sample choices draws unit =>
    simp only [Tree.surveyed] at member
    split at member
    · simp_all [Tree.parts]
    · exact List.mem_of_mem_take (show part ∈ [choices, draws, unit].take 2 from member)
  | randomRange kind low high unit =>
    exact List.mem_of_mem_take (show part ∈ [low, high, unit].take 2 from member)
  | _ => revert member; simp +contextual [Tree.surveyed, Tree.parts]

/-- The description of a script that neither assigns nor branches, from those of its surveyed parts. -/
def Tree.made (store : Store Description) : Tree → List Description → Except Fault Description
  | .scalar value, _ => .ok (.atom (.scalar value))
  | .literal value, _ => .ok (.ofLiteral value)
  | .array _, items => .ok (.array items)
  | .lookup name, _ => .ok (store.get name .unknown)
  | .sequence _, steps => .ok (steps.getLastD .unknown)
  | .binary (.calculate op) _ _, [left, right] => left.combine op.function right
  | .binary _ _ _, _ | .connective _ _, _ | .includes _ _, _ => .ok .boolean
  | .fold op _, operands => describeFold op operands
  | .unary op _, [operand] => describeUnary operand op
  | .randomRange kind _ _ _, [low, high] => .ok (describeRange kind low high)
  | .bernoulliTrial _ _, _ => .ok (.oneOf [.atom (.int 0), .atom (.int 1)])
  | .bernoulliFilter _ _ _, [choices] => .ok (describeChoices allOf choices)
  | .uniformChoice _ _, [choices] | .weightedChoice _ _ _, [choices] =>
    .ok (describeChoices onlyOne choices)
  | .sample _ draws _, [choices] =>
    .ok (if draws.isNull then describeChoices allOf choices else .unknown)
  | .sample _ _ _, [.array items, draws] =>
    .ok (draws.number?.elim .unknown fun limit => .select (.num limit) items)
  | .index _ _, [base, key] => describePart base key
  | _, _ => .ok .unknown

/-- Steps are described in order, and the last description counts. -/
theorem previewSteps_eq (last : Description) (steps : List Tree) :
    previewSteps last steps =
      previewItems steps >>= fun described => pure (described.getLastD last) := by
  -- The induction is on the steps, each of which takes the place of the last one.
  induction steps generalizing last with
  | nil => rfl
  | cons step rest ih =>
    rw [previewSteps, previewItems, bind_assoc]
    refine congrArg _ (funext fun described => ?_)
    rw [ih, bind_assoc]
    refine congrArg _ (funext fun others => ?_)
    rw [pure_bind, List.getLastD_cons]

section Few

variable {α : Type} (rest : List Description → Survey α)

/-- A single part is described on its own. -/
theorem previewItems_single (part : Tree) :
    (previewItems [part] >>= rest) = preview part >>= fun described => rest [described] := by
  simp only [previewItems, bind_assoc, pure_bind]

/-- Two parts are described one after the other. -/
theorem previewItems_pair (first second : Tree) :
    (previewItems [first, second] >>= rest) =
      preview first >>= fun earlier => preview second >>= fun later => rest [earlier, later] := by
  simp only [previewItems, bind_assoc, pure_bind]

end Few

/-- A sample describes its choices, and its number of draws where the choices are a list. -/
theorem run_preview_sample (choices draws unit : Tree) (store : Store Description) :
    (preview (.sample choices draws unit)).run store =
      (previewItems ((Tree.sample choices draws unit).surveyed store) >>= fun described =>
        liftM ((Tree.sample choices draws unit).made store described)).run store := by
  rw [preview]
  by_cases absent : draws.isNull = true
  · -- Without a number of draws only the choices are described.
    simp only [Tree.surveyed, absent, Bool.true_or, if_true, previewItems_single, Tree.made]
    rfl
  · -- The number of draws is only described for a list of choices.
    rw [Stateful.run_bind]
    cases ran : (preview choices).run store with
    | mk outcome middle =>
      cases outcome with
      | error fault =>
        simp only [Tree.surveyed, describesList, ran, Bool.not_false, Bool.or_true, if_true,
          previewItems_single, Stateful.run_bind]
      | ok described =>
        cases described with
        | array items =>
          simp only [Tree.surveyed, describesList, ran, absent, Bool.not_true, Bool.or_false,
            Bool.false_eq_true, if_false, previewItems_pair, Stateful.run_bind, Tree.made]
          cases drawn : (preview draws).run middle with
          | mk outcome after =>
            cases outcome with
            | error fault => rfl
            | ok limit => cases known : limit.number? <;> simp only [known] <;> rfl
        | _ =>
          simp only [Tree.surveyed, describesList, ran, absent, Bool.not_false, Bool.or_true,
            if_true, previewItems_single, Stateful.run_bind, Tree.made]
          rfl

/-- A preview of anything but an assignment or a condition makes its description from its parts. -/
theorem run_preview {tree : Tree} (named : tree.ownName? = none)
    (plain : ∀ clauses, tree ≠ .cond clauses) (store : Store Description) :
    (preview tree).run store =
      (previewItems (tree.surveyed store) >>= fun described =>
        liftM (tree.made store described)).run store := by
  -- One case for each kind of node, by the number of parts that it visits.
  cases tree with
  | assign name value => cases named
  | cond clauses => exact absurd rfl (plain clauses)
  | scalar | literal | lookup | bernoulliTrial => rfl
  | array items => rw [preview]; rfl
  | connective op operands => rw [preview]; rfl
  | fold op operands => rw [preview]; rfl
  -- The steps of a sequence keep only the last description.
  | sequence steps =>
    rw [preview, previewSteps_eq]
    rfl
  | unary op operand =>
    rw [preview, Tree.surveyed, previewItems_single]
    rfl
  | bernoulliFilter probability choices unit =>
    rw [preview, Tree.surveyed, previewItems_single]
    rfl
  | uniformChoice choices unit =>
    rw [preview, Tree.surveyed, previewItems_single]
    rfl
  | weightedChoice choices weights unit =>
    rw [preview, Tree.surveyed, previewItems_single]
    rfl
  -- Calculations look at both descriptions, comparisons at neither.
  | binary op left right =>
    cases op with
    | calculate op =>
      rw [preview, Tree.surveyed, previewItems_pair]
      rfl
    | equals | order op =>
      rw [preview, Tree.surveyed, previewItems_pair]
      · rfl
      · simp
  | randomRange kind low high unit =>
    rw [preview, Tree.surveyed, previewItems_pair]
    rfl
  | index base key =>
    rw [preview, Tree.surveyed, previewItems_pair]
    rfl
  | includes collection item =>
    rw [preview, Tree.surveyed, previewItems_pair]
    rfl
  | sample choices draws unit => exact run_preview_sample choices draws unit store

end TrialScript
