import TrialScript.Tree.Operation

/-! The grammar of written scripts: which parts are wrong, in the order of a traversal. -/

namespace TrialScript

/-- What is wrong with a field that is not there. -/
def Field.absent (op : Operation) (field : Field) : List Problem :=
  match field.shape with
  | .anything => [.here .noLiteral]
  | .name => [.here (.noName op.name)]
  | .tree | .presentTrees => [.here (.noField op.name field.key)]
  -- A part that may be left out is no problem if it is.
  | .optionalTree => []
  | .trees => [.here (.notList op.name field.key Value.null.kindName)]
  | .clauses => [.here (.notClauses Value.null.kindName)]

/-- What is wrong with a value in the place of a name. -/
def nameProblems (op : Operation) : Value → List Problem
  | .str _ => []
  | .null => [.here (.noName op.name)]
  | other => [.here (.nameKind op.name other.kindName)]

mutual

/-- The problems of a written script, each with its place. -/
def problems : Value → List Problem
  | .scalar _ => []
  | .list items => itemProblems 0 items
  -- Without a known operation no field is looked at.
  | .dict fields =>
    match operationOf fields with
    | .error defect => [.here defect]
    | .ok op => (op.fields fields).flatMap fun field => fieldProblems op field fields
  | .date value => [.here (.notNode (Value.date value).kindName)]
  | .datetime value => [.here (.notNode (Value.datetime value).kindName)]

/-- The problems of items, numbered from a given one on. -/
def itemProblems (index : Nat) : List Value → List Problem
  | [] => []
  | item :: rest =>
    (problems item).map (Problem.under (.item index)) ++ itemProblems (index + 1) rest

/-- The problems of the clauses of a conditional, numbered from a given one on. -/
def clauseProblems (index : Nat) : List Value → List Problem
  | [] => []
  -- The guard and the body must be there, and have problems of their own.
  | .dict parts :: rest =>
    (partProblems "if" parts ++ partProblems "then" parts).map (Problem.under (.item index)) ++
      clauseProblems (index + 1) rest
  | other :: rest =>
    ⟨[.item index], .notClause other.kindName⟩ :: clauseProblems (index + 1) rest

/-- The problems of one part of a clause. -/
def partProblems (key : String) : List (String × Value) → List Problem
  | [] => [.here (.noClauseField key)]
  | (name, value) :: rest =>
    if name = key then (problems value).map (Problem.under (.field key))
    else partProblems key rest

/-- The problems of one field of a node. -/
def fieldProblems (op : Operation) (field : Field) : List (String × Value) → List Problem
  | [] => field.absent op
  | (name, value) :: rest =>
    -- The first entry of that name is the value of the field.
    if name = field.key then
      match field.shape with
      | .anything => []
      | .name => nameProblems op value
      | .tree | .optionalTree => (problems value).map (Problem.under (.field field.key))
      | .trees | .presentTrees =>
        match value with
        | .list items => (itemProblems 0 items).map (Problem.under (.field field.key))
        | other => [.here (.notList op.name field.key other.kindName)]
      | .clauses =>
        match value with
        | .list clauses => (clauseProblems 0 clauses).map (Problem.under (.field field.key))
        | other => [.here (.notClauses other.kindName)]
    else fieldProblems op field rest

end

end TrialScript
