import TrialScript.Value.Display

/-! Problems of written scripts: a place in the script and what is wrong there. -/

namespace TrialScript

/-- One step from a part of a script to a part inside it. -/
inductive Segment where
  | field (key : String)
  | item (index : Nat)
deriving DecidableEq

/-- The text of one step. -/
def Segment.text : Segment → String
  | .field key => "." ++ key
  | .item index => "[" ++ integerText index ++ "]"

/-- The text of a place, starting at the root. -/
def pathText (path : List Segment) : String :=
  path.foldl (fun text segment => text ++ segment.text) "root"

/-- What is wrong with one part of a written script. -/
inductive Defect where
  | notNode (kind : String)
  | noOperation
  | unknownOperation (operation : Value)
  | noLiteral
  | noName (operation : String)
  | nameKind (operation kind : String)
  | notList (operation key kind : String)
  | notClauses (kind : String)
  | notClause (kind : String)
  | noClauseField (key : String)
  | noField (operation key : String)
deriving DecidableEq

/-- The wording of a defect. -/
def Defect.message : Defect → String
  | .notNode kind => "node must be a scalar, list or dict, got " ++ kind
  | .noOperation => "node missing 'op' field"
  | .unknownOperation operation => "unsupported op '" ++ operation.text ++ "'"
  | .noLiteral => "literal node missing 'value' field"
  | .noName operation => operation ++ " node missing 'var' field"
  | .nameKind operation kind => operation ++ " var must be a string, got " ++ kind
  | .notList operation key kind =>
    "'" ++ operation ++ "' node needs a list in '" ++ key ++ "', got " ++ kind
  | .notClauses kind => "cond node needs a list in 'cond', got " ++ kind
  | .notClause kind => "clause must be a dict, got " ++ kind
  | .noClauseField key => "clause missing '" ++ key ++ "' field"
  | .noField operation key => "'" ++ operation ++ "' node missing '" ++ key ++ "' field"

/-- A defect and the place of the part that has it. -/
structure Problem where
  path : List Segment
  defect : Defect
deriving DecidableEq

namespace Problem

/-- A problem of a part itself. -/
def here (defect : Defect) : Problem :=
  ⟨[], defect⟩

/-- A problem of a part, seen from the part around it. -/
def under (segment : Segment) (problem : Problem) : Problem :=
  { problem with path := segment :: problem.path }

/-- The place and the defect in words. -/
def message (problem : Problem) : String :=
  pathText problem.path ++ ": " ++ problem.defect.message

/-- The unknown operation that a problem reports, with its place. -/
def unknown? (problem : Problem) : Option (Value × List Segment) :=
  match problem.defect with
  | .unknownOperation operation => some (operation, problem.path)
  | _ => none

end Problem
end TrialScript
