import TrialScript.Fault
import TrialScript.Tree.Grammar
import TrialScript.Json.Reader

/-! Script trees: read from written scripts that have no problems, and written back. -/

namespace TrialScript

/-- A script: constants, variables, control flow, operators and draws. -/
inductive Tree where
  | scalar (value : Scalar)
  | literal (value : Value)
  | array (items : List Tree)
  | lookup (name : String)
  | assign (name : String) (value : Tree)
  | sequence (steps : List Tree)
  | cond (clauses : List (Tree × Tree))
  | binary (op : BinaryOp) (left right : Tree)
  | connective (op : Connective) (operands : List Tree)
  | fold (op : FoldOp) (operands : List Tree)
  | unary (op : UnaryOp) (operand : Tree)
  | randomRange (kind : RangeKind) (low high unit : Tree)
  | bernoulliTrial (probability unit : Tree)
  | bernoulliFilter (probability choices unit : Tree)
  | uniformChoice (choices unit : Tree)
  | weightedChoice (choices weights unit : Tree)
  | sample (choices draws unit : Tree)
  | index (base key : Tree)
  | includes (collection item : Tree)

namespace Tree

/-- The constant without a value, which stands for every part that is left out. -/
@[match_pattern] abbrev null : Tree := .scalar .null

instance : Inhabited Tree := ⟨null⟩

/-- Whether a part is left out. -/
def isNull : Tree → Bool
  | .null => true
  | _ => false

/-- The text in the field of a name. -/
def nameField? (fields : Table Value) : Option String :=
  match fields.lookup? "var" with
  | some (.str name) => some name
  | _ => none

mutual

/-- The tree of a written script, if it has one. -/
def read? : Value → Option Tree
  | .scalar value => some (.scalar value)
  | .list items => (readItems? items).map .array
  | .dict fields =>
    -- A mapping without a known operation is no tree.
    match operationOf fields with
    | .error _ => none
    | .ok op =>
      match op with
      | .literal => (Table.lookup? "value" fields).map .literal
      | .array => (readTrees? "values" fields).map .array
      | .lookup => (nameField? fields).map .lookup
      | .assign => do some (.assign (← nameField? fields) (← readField? "value" fields))
      | .sequence => (readTrees? "seq" fields).map .sequence
      | .cond => (readClauses? "cond" fields).map .cond
      | .index => do some (.index (← readField? "base" fields) (← readField? "index" fields))
      | .includes => do
        some (.includes (← readField? "collection" fields) (← readField? "value" fields))
      -- A subtraction of one value is its negation.
      | .binary op =>
        if op.isNegation fields then
          (readField? "value" fields).map (.unary .negate)
        else do some (.binary op (← readField? "left" fields) (← readField? "right" fields))
      -- A connective is written with two sides or with a list.
      | .connective op =>
        if writtenBetween fields then do
          some (.connective op [← readField? "left" fields, ← readField? "right" fields])
        else (readTrees? "values" fields).map (.connective op)
      | .fold op => (readTrees? "values" fields).map (.fold op)
      | .unary op => (readField? "value" fields).map (.unary op)
      -- A unit that is left out is the constant null.
      | .randomRange kind => do
        some (.randomRange kind (← readField? "min" fields) (← readField? "max" fields)
          (← readOptional? "unit" fields))
      | .bernoulliTrial => do
        some (.bernoulliTrial (← readField? "p" fields) (← readOptional? "unit" fields))
      | .bernoulliFilter => do
        some (.bernoulliFilter (← readField? "p" fields) (← readField? "choices" fields)
          (← readOptional? "unit" fields))
      | .uniformChoice => do
        some (.uniformChoice (← readField? "choices" fields) (← readOptional? "unit" fields))
      | .weightedChoice => do
        some (.weightedChoice (← readField? "choices" fields) (← readField? "weights" fields)
          (← readOptional? "unit" fields))
      | .sample => do
        some (.sample (← readField? "choices" fields) (← readOptional? "draws" fields)
          (← readOptional? "unit" fields))
  | .date _ | .datetime _ => none

/-- The trees of written items. -/
def readItems? : List Value → Option (List Tree)
  | [] => some []
  | item :: rest => do some ((← read? item) :: (← readItems? rest))

/-- The guards and bodies of written clauses. -/
def readClauseItems? : List Value → Option (List (Tree × Tree))
  | [] => some []
  | .dict parts :: rest => do
    some ((← readField? "if" parts, ← readField? "then" parts) :: (← readClauseItems? rest))
  | _ :: _ => none

/-- The tree in a field that must be there. -/
def readField? (key : String) : List (String × Value) → Option Tree
  | [] => none
  | (name, value) :: rest => if name = key then read? value else readField? key rest

/-- The tree in a field that may be left out. -/
def readOptional? (key : String) : List (String × Value) → Option Tree
  | [] => some null
  | (name, value) :: rest => if name = key then read? value else readOptional? key rest

/-- The trees in the list of a field. -/
def readTrees? (key : String) : List (String × Value) → Option (List Tree)
  | [] => none
  | (name, value) :: rest =>
    if name = key then
      match value with
      | .list items => readItems? items
      | _ => none
    else readTrees? key rest

/-- The clauses in the list of a field. -/
def readClauses? (key : String) : List (String × Value) → Option (List (Tree × Tree))
  | [] => none
  | (name, value) :: rest =>
    if name = key then
      match value with
      | .list clauses => readClauseItems? clauses
      | _ => none
    else readClauses? key rest

end

/-- The tree of a written script; an unknown operation is reported before any other problem. -/
def parse (script : Value) : Except Fault Tree :=
  -- All problems are collected first, and an unknown operation comes before all others.
  let found := problems script
  match found.findSome? Problem.unknown? with
  | some (operation, path) => .error (.unsupported operation path)
  | none =>
    match found, read? script with
    | [], some tree => .ok tree
    | _, _ => .error (.malformed found)

/-- The tree of a script in a JSON text. -/
def ofJson (text : String) : Except Fault Tree :=
  match Json.read? text with
  | some script => parse script
  | none => .error .notJson

/-- The tree of a script in a file, whose text is absent where there is no file. -/
def ofFile (path : String) : Option String → Except Fault Tree
  | some text => ofJson text
  | none => .error (.noFile path)

/-- A node with the name of its operation and its fields. -/
def node (op : Operation) (fields : List (String × Value)) : Value :=
  .dict (("op", .str op.name) :: fields)

mutual

/-- The written script of a tree. -/
def toValue : Tree → Value
  | .scalar value => .scalar value
  | .literal value => node .literal [("value", value)]
  | .array items => node .array [("values", .list (toValues items))]
  | .lookup name => node .lookup [("var", .str name)]
  | .assign name value => node .assign [("var", .str name), ("value", toValue value)]
  | .sequence steps => node .sequence [("seq", .list (toValues steps))]
  | .cond clauses => node .cond [("cond", .list (clauseValues clauses))]
  | .binary op left right =>
    node (.binary op) [("left", toValue left), ("right", toValue right)]
  | .connective op operands => node (.connective op) [("values", .list (toValues operands))]
  | .fold op operands => node (.fold op) [("values", .list (toValues operands))]
  | .unary op operand => node (.unary op) [("value", toValue operand)]
  | .randomRange kind low high unit =>
    node (.randomRange kind) [("min", toValue low), ("max", toValue high), ("unit", toValue unit)]
  | .bernoulliTrial probability unit =>
    node .bernoulliTrial [("p", toValue probability), ("unit", toValue unit)]
  | .bernoulliFilter probability choices unit =>
    node .bernoulliFilter
      [("p", toValue probability), ("choices", toValue choices), ("unit", toValue unit)]
  | .uniformChoice choices unit =>
    node .uniformChoice [("choices", toValue choices), ("unit", toValue unit)]
  | .weightedChoice choices weights unit =>
    node .weightedChoice
      [("choices", toValue choices), ("weights", toValue weights), ("unit", toValue unit)]
  | .sample choices draws unit =>
    -- A sample of everything is written without the number of draws.
    node .sample ([("choices", toValue choices), ("unit", toValue unit)] ++
      (if draws.isNull then [] else [("draws", toValue draws)]))
  | .index base key => node .index [("base", toValue base), ("index", toValue key)]
  | .includes collection item =>
    node .includes [("collection", toValue collection), ("value", toValue item)]

/-- The written scripts of trees. -/
def toValues : List Tree → List Value
  | [] => []
  | tree :: rest => toValue tree :: toValues rest

/-- The written clauses of guards and bodies. -/
def clauseValues : List (Tree × Tree) → List Value
  | [] => []
  | (guard, body) :: rest =>
    .dict [("if", toValue guard), ("then", toValue body)] :: clauseValues rest

end

end Tree
end TrialScript
