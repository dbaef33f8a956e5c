import TrialScript.Proofs.Evaluation.Faults
import TrialScript.Proofs.Preview.Faults
import TrialScript.Proofs.Tree.Sources

/-! Parsing: exactly the written scripts have trees, whose nodes can all be run and described. -/

namespace TrialScript

namespace Tree

/-- The operation of a node; a constant has none. -/
def operation? : Tree → Option Operation
  | .scalar _ => none
  | .literal _ => some .literal
  | .array _ => some .array
  | .lookup _ => some .lookup
  | .assign _ _ => some .assign
  | .sequence _ => some .sequence
  | .cond _ => some .cond
  | .binary op _ _ => some (.binary op)
  | .connective op _ => some (.connective op)
  | .fold op _ => some (.fold op)
  | .unary op _ => some (.unary op)
  | .randomRange kind _ _ _ => some (.randomRange kind)
  | .bernoulliTrial _ _ => some .bernoulliTrial
  | .bernoulliFilter _ _ _ => some .bernoulliFilter
  | .uniformChoice _ _ => some .uniformChoice
  | .weightedChoice _ _ _ => some .weightedChoice
  | .sample _ _ _ => some .sample
  | .index _ _ => some .index
  | .includes _ _ => some .includes

end Tree

/-- No run of a computation stops because an operation is unknown. -/
def NeverUnsupported {σ α : Type} (computation : Stateful σ α) : Prop :=
  ∀ state fault, (computation.run state).1 = .error fault → fault.kind ≠ .unsupportedOperation

/-- Faults of other kinds are no unknown operations. -/
theorem StopsOnly.neverUnsupported {σ α : Type} {kinds : List FaultKind}
    {computation : Stateful σ α} (stops : StopsOnly kinds computation)
    (others : .unsupportedOperation ∉ kinds) : NeverUnsupported computation := by
  -- The kind of the fault would be one of those that it is not among.
  intro state fault failed unknown
  have member := stops state fault failed
  rw [unknown] at member
  exact others member

/-- A run that does nothing once the trial has returned stops as it does before. -/
theorem StopsOnly.unlessReturned {kinds : List FaultKind} {step : Run Value}
    (stops : StopsOnly kinds step) : StopsOnly kinds (unlessReturned step) := by
  refine .bind .get fun trial => ?_
  split
  · exact .done _
  · exact stops

/-- A node can be run by the names with a handler, and by no other name. -/
theorem neverUnsupported_dispatch {name : String} {operand : Value} :
    NeverUnsupported (dispatch (.str name) operand) ↔ ∃ op, handlers.lookup? name = some op := by
  constructor
  · intro never
    cases known : handlers.lookup? name with
    | some op => exact ⟨op, rfl⟩
    | none =>
      -- A trial that has not returned looks the name up and does not find it.
      let trial := Trial.start "" .default (.ofBase .empty)
      have failed : ((dispatch (.str name) operand).run trial).1 =
          .error (.unsupported (.str name) []) := by
        rw [dispatch, run_unlessReturned rfl]
        simp only [known]
        rfl
      exact absurd rfl (never trial _ failed)
  · -- A node of another shape than its operation lacks a part, which is a fault of another kind.
    intro ⟨op, known⟩
    have stops : StopsOnly (.missingMember :: .wrongKind :: runFaults)
        (dispatch (.str name) operand) := by
      refine .unlessReturned ?_
      simp only [known]
      cases op with
      | literal => exact .done operand
      | unary op =>
        intro trial
        exact (FailsOnly.evaluate _ trial).mono (by decide)
      | _ => exact .lift (.error (by decide))
    exact stops.neverUnsupported (by decide)

/-- A node can be described by the names of truth values and those with a describer, only. -/
theorem neverUnsupported_previewDispatch {name : String} {operand : Value} :
    NeverUnsupported (previewDispatch (.str name) operand) ↔
      name ∈ truthNames ∨ ∃ op, describers.lookup? name = some op := by
  constructor
  · intro never
    by_cases truth : name ∈ truthNames
    · exact .inl truth
    cases known : describers.lookup? name with
    | some op => exact .inr ⟨op, rfl⟩
    | none =>
      -- Without any variable the name is looked up all the same.
      have failed : ((previewDispatch (.str name) operand).run (.ofBase .empty)).1 =
          .error (.unsupported (.str name) []) := by
        simp only [previewDispatch, truth, if_false, known]
        rfl
      exact absurd rfl (never _ _ failed)
  · -- Some operations are described without looking at any part.
    intro listed
    have stops : StopsOnly (.missingMember :: previewFaults)
        (previewDispatch (.str name) operand) := by
      by_cases truth : name ∈ truthNames
      · simp only [previewDispatch, truth, if_true]
        exact .done _
      obtain ⟨op, known⟩ := listed.resolve_left truth
      simp only [previewDispatch, truth, if_false, known]
      cases op with
      | literal => exact .done _
      | bernoulliTrial => exact fun _ => .ok _
      | unary op => exact .lift (FailsOnly.describeUnary.mono (by decide))
      | _ => exact .lift (.error (by decide))
    exact stops.neverUnsupported (by decide)

/-- An operation whose name is in the table for running nodes and in those for describing them. -/
structure Operation.Listed (op : Operation) : Prop where
  handler : handlers.lookup? op.name = some op
  describer : op.name ∈ truthNames ∨ describers.lookup? op.name = some op

/-- Every operation is in the tables under its own name. -/
theorem Operation.listed (op : Operation) : op.Listed := by
  -- The tables are written out by name, so they are looked through for each name.
  suffices both : handlers.lookup? op.name = some op ∧
      (op.name ∈ truthNames ∨ describers.lookup? op.name = some op) from ⟨both.1, both.2⟩
  cases op with
  | binary op =>
    cases op with
    | equals => decide +kernel
    | order op => cases op <;> decide +kernel
    | calculate op => cases op <;> decide +kernel
  | connective op => cases op <;> decide +kernel
  | fold op => cases op <;> decide +kernel
  | unary op => cases op <;> decide +kernel
  | randomRange kind => cases kind <;> decide +kernel
  | _ => decide +kernel

/-- A constant, or a node whose operation is in both tables, so that it can be run and described. -/
structure Tree.Handled (tree : Tree) : Prop where
  constant : tree.operation? = none → ∃ value, tree = .scalar value
  tagged : ∀ op, tree.operation? = some op → ∃ fields, tree.toValue = node op fields
  listed : ∀ op, tree.operation? = some op → op.Listed
  dispatched : ∀ op, tree.operation? = some op → ∀ operand,
    NeverUnsupported (dispatch (.str op.name) operand)
  surveyed : ∀ op, tree.operation? = some op → ∀ operand,
    NeverUnsupported (previewDispatch (.str op.name) operand)
  runs : NeverUnsupported (evaluate tree)
  previews : NeverUnsupported (preview tree)

/-- Trees are put together from known operations only, so each of them is handled. -/
theorem Tree.handled (tree : Tree) : tree.Handled where
  constant := by cases tree <;> simp [operation?]
  tagged := by cases tree <;> simp [operation?, toValue, node]
  listed op _ := op.listed
  dispatched op _ _ := neverUnsupported_dispatch.mpr ⟨op, op.listed.handler⟩
  surveyed op _ _ :=
    neverUnsupported_previewDispatch.mpr (op.listed.describer.imp_right fun found => ⟨op, found⟩)
  runs := by
    have stops : StopsOnly (.wrongKind :: runFaults) (evaluate tree) := FailsOnly.evaluate tree
    exact stops.neverUnsupported (by decide)
  previews := (StopsOnly.preview tree).neverUnsupported (by decide)

namespace Tree

/-- A written script is parsed into its tree. -/
theorem parse_of_written {script : Value} (written : Written script) :
    ∃ tree, parse script = .ok tree := by
  -- There are no problems, among which an unknown operation would have been looked for.
  obtain ⟨tree, reads⟩ := reads_of_written written
  have fine := (problems_eq_nil_iff script).mpr written
  exact ⟨tree, by simp [parse, fine, reads]⟩

/-- Any other script is refused for the first unknown operation, or else for all its problems. -/
theorem parse_of_not_written {script : Value} (unwritten : ¬ Written script) :
    parse script = match firstUnknown? script with
      | some (operation, path) => .error (.unsupported operation path)
      | none => .error (.malformed (problems script)) := by
  -- Among the problems, of which there are some, the first unknown operation is looked for.
  have wrong : problems script ≠ [] := fun fine => unwritten ((problems_eq_nil_iff script).mp fine)
  unfold parse
  simp only [findSome?_problems]
  cases firstUnknown? script with
  | some unknown => rfl
  | none =>
    dsimp only
    split
    · next fine _ => exact absurd fine wrong
    · rfl

/-- A script is parsed into the tree that it is read as, if it is written in the grammar. -/
theorem parse_eq_ok_iff {script : Value} {tree : Tree} :
    parse script = .ok tree ↔ Written script ∧ read? script = some tree := by
  constructor
  · intro parsed
    have written : Written script := by
      by_contra unwritten
      -- A script outside the grammar is refused, for an unknown operation or for all problems.
      have refused := parse_of_not_written unwritten
      rw [parsed] at refused
      split at refused <;> cases refused
    obtain ⟨other, reads⟩ := reads_of_written written
    rw [parse, (problems_eq_nil_iff script).mpr written] at parsed
    simp only [List.findSome?_nil, reads] at parsed
    cases parsed
    exact ⟨written, reads⟩
  · rintro ⟨written, reads⟩
    rw [parse, (problems_eq_nil_iff script).mpr written]
    simp only [List.findSome?_nil, reads]

/-- Whatever the traversal meets in a written script is written. -/
theorem written_of_visited {script met : Value} {path : List Segment} (written : Written script)
    (inside : (path, met) ∈ visited script) : Written met := by
  -- The traversal goes from a written part to written parts only.
  refine induction_visited (motive := fun script _ met => Written script → Written met)
    (fun _ written => written) ?_ inside written
  intro script outer part inner met visit onward written
  exact onward (written_iff_passes.mp written _ visit)

/-- Every node that the traversal meets in a parsed script has a name that is in both tables. -/
theorem listed_of_parse {script : Value} {tree : Tree} {path : List Segment} {fields : Table Value}
    (parsed : parse script = .ok tree) (inside : (path, .dict fields) ∈ visited script) :
    ∃ op, Tagged fields op ∧ op.Listed := by
  -- A script that was parsed is written, and so is each of its nodes.
  have written := (parse_eq_ok_iff.mp parsed).1
  obtain ⟨op, tag, -⟩ := (written_of_visited written inside).holds
  exact ⟨op, tag, op.listed⟩

/--
A script is parsed exactly if it has no problems, which is exactly if it is written in the grammar.

Any other script is refused: for the first unknown operation that the traversal meets, or if it
meets none for all problems, whose messages are joined. The traversal of a script that was parsed
meets only nodes whose names are in the tables of both ways to go through a tree, and every node of
the tree is read from one of the parts that it meets, unless the node is a part that was left out.
Running or describing such a node never ends with an unknown operation.
-/
theorem parse_accepts_exactly_written (script : Value) :
    ((∃ tree, parse script = .ok tree) ↔ problems script = []) ∧
    (problems script = [] ↔ Written script) ∧
    (¬ Written script → match firstUnknown? script with
      | some (operation, path) => parse script = .error (.unsupported operation path)
      | none => parse script = .error (.malformed (problems script)) ∧
          (Fault.malformed (problems script)).message? = some ("Tree validation failed: " ++
            "; ".intercalate ((problems script).map Problem.message))) ∧
    ∀ tree, parse script = .ok tree →
      (∀ path fields, (path, .dict fields) ∈ visited script → ∃ op, Tagged fields op ∧ op.Listed) ∧
      ∀ node ∈ tree.nodes, node.Handled ∧
        (node = null ∨ ∃ path part, (path, part) ∈ visited script ∧ read? part = some node) := by
  -- The grammar derives the scripts without problems, and these are the ones that are parsed.
  have derived := problems_eq_nil_iff script
  refine ⟨⟨?_, ?_⟩, derived, ?_, fun tree parsed => ⟨?_, fun node inside => ⟨node.handled, ?_⟩⟩⟩
  · exact fun ⟨tree, parsed⟩ => derived.mpr (parse_eq_ok_iff.mp parsed).1
  · exact fun fine => parse_of_written (derived.mp fine)
  · intro unwritten
    have refused := parse_of_not_written unwritten
    cases unknown : firstUnknown? script with
    | some found =>
      rw [unknown] at refused
      exact refused
    | none =>
      rw [unknown] at refused
      exact ⟨refused, rfl⟩
  · exact fun path fields met => listed_of_parse parsed met
  · exact visited_of_mem_nodes (parse_eq_ok_iff.mp parsed).2 inside

/-- A choice that is kept in a variable is parsed, and an unknown operation is refused. -/
theorem parse_accepts_choice_and_refuses_guess :
    let choice := Value.dict
      [("op", .str "uniformChoice"), ("choices", .list [.str "a", .str "b"])]
    let script := Value.dict [("op", .str "set"), ("var", .str "x"), ("value", choice)]
    let guess := Value.dict [("op", .str "guess")]
    (∃ tree, parse script = .ok tree ∧ tree ∈ tree.nodes ∧ tree.Handled ∧
      (∀ path fields, (path, .dict fields) ∈ visited script →
        ∃ op, Tagged fields op ∧ op.Listed)) ∧
    parse guess = .error (.unsupported (.str "guess") []) := by
  intro choice script guess
  -- The problems of both scripts are counted, and the rest is what the theorem says of them.
  obtain ⟨accepts, -, -, listed⟩ := parse_accepts_exactly_written script
  obtain ⟨-, derived, refuses, -⟩ := parse_accepts_exactly_written guess
  obtain ⟨tree, parsed⟩ := accepts.mpr (by decide +kernel)
  have handled := (listed tree parsed).2 tree (mem_nodes_self tree)
  have unwritten : ¬ Written guess := fun written => absurd (derived.mpr written) (by decide +kernel)
  have unknown : firstUnknown? guess = some (.str "guess", []) := by
    rw [firstUnknown?, visited_eq]
    rfl
  have refused := refuses unwritten
  rw [unknown] at refused
  exact ⟨⟨tree, parsed, mem_nodes_self tree, handled.1, (listed tree parsed).1⟩, refused⟩

end Tree
end TrialScript
