import TrialScript.Tree.Problem

/-! The operations of scripts, their names, and the fields in which each is written. -/

namespace TrialScript

/-- Ways to order two values. -/
inductive Comparison where
  | greater
  | less
  | atLeast
  | atMost
deriving DecidableEq

/-- Calculations with a left and a right number. -/
inductive Calculation where
  | remainder
  | divide
  | subtract
deriving DecidableEq

/-- Operations on a left and a right operand. -/
inductive BinaryOp where
  | equals
  | order (op : Comparison)
  | calculate (op : Calculation)
deriving DecidableEq

/-- Operations that stop at the first operand that decides them. -/
inductive Connective where
  | all
  | any
deriving DecidableEq

/-- Operations that fold any number of numbers. -/
inductive FoldOp where
  | sum
  | product
  | least
  | greatest
deriving DecidableEq

/-- Operations on one operand. -/
inductive UnaryOp where
  | finish
  | not
  | round
  | negate
  | length
deriving DecidableEq

/-- The kinds of numbers between two bounds. -/
inductive RangeKind where
  | float
  | integer
deriving DecidableEq

/-- Everything that a node of a script can do. -/
inductive Operation where
  | literal
  | array
  | lookup
  | assign
  | sequence
  | cond
  | index
  | includes
  | binary (op : BinaryOp)
  | connective (op : Connective)
  | fold (op : FoldOp)
  | unary (op : UnaryOp)
  | randomRange (kind : RangeKind)
  | bernoulliTrial
  | bernoulliFilter
  | uniformChoice
  | weightedChoice
  | sample
deriving DecidableEq

/-- The written name of a comparison. -/
def Comparison.name : Comparison → String
  | .greater => ">"
  | .less => "<"
  | .atLeast => ">="
  | .atMost => "<="

/-- The written name of a calculation. -/
def Calculation.name : Calculation → String
  | .remainder => "%"
  | .divide => "/"
  | .subtract => "-"

/-- The written name of a binary operation. -/
def BinaryOp.name : BinaryOp → String
  | .equals => "equals"
  | .order op => op.name
  | .calculate op => op.name

/-- The written name of a connective. -/
def Connective.name : Connective → String
  | .all => "and"
  | .any => "or"

/-- The written name of a fold. -/
def FoldOp.name : FoldOp → String
  | .sum => "sum"
  | .product => "product"
  | .least => "min"
  | .greatest => "max"

/-- The written name of a unary operation. -/
def UnaryOp.name : UnaryOp → String
  | .finish => "return"
  | .not => "not"
  | .round => "round"
  | .negate => "negative"
  | .length => "length"

/-- The written name of a draw between bounds. -/
def RangeKind.drawName : RangeKind → String
  | .float => "randomFloat"
  | .integer => "randomInteger"

namespace Operation

/-- The written name of an operation. -/
def name : Operation → String
  | .literal => "literal"
  | .array => "array"
  | .lookup => "get"
  | .assign => "set"
  | .sequence => "seq"
  | .cond => "cond"
  | .index => "index"
  | .includes => "includes"
  | .binary op => op.name
  | .connective op => op.name
  | .fold op => op.name
  | .unary op => op.name
  | .randomRange kind => kind.drawName
  | .bernoulliTrial => "bernoulliTrial"
  | .bernoulliFilter => "bernoulliFilter"
  | .uniformChoice => "uniformChoice"
  | .weightedChoice => "weightedChoice"
  | .sample => "sample"

/-- Every operation once. -/
def every : List Operation := [
  .literal, .array, .lookup, .assign, .sequence, .cond, .index, .includes,
  .binary .equals, .binary (.order .greater), .binary (.order .less), .binary (.order .atLeast),
  .binary (.order .atMost), .binary (.calculate .remainder), .binary (.calculate .divide),
  .binary (.calculate .subtract), .connective .all, .connective .any,
  .fold .sum, .fold .product, .fold .least, .fold .greatest,
  .unary .finish, .unary .not, .unary .round, .unary .negate, .unary .length,
  .randomRange .float, .randomRange .integer,
  .bernoulliTrial, .bernoulliFilter, .uniformChoice, .weightedChoice, .sample]

/-- The operation that a written name stands for. -/
def ofName? (name : String) : Option Operation :=
  every.find? fun op => op.name == name

/-- Every operation is found by its name. -/
theorem ofName?_name (op : Operation) : ofName? op.name = some op := by
  -- No two operations share a name, so the search stops at the operation itself.
  cases op with
  | binary op =>
    cases op with
    | equals => decide +kernel
    | order op => cases op <;> decide +kernel
    | calculate op => cases op <;> decide +kernel
  | connective op => cases op <;> decide +kernel
  | fold op => cases op <;> decide +kernel
  | unary op => cases op <;> decide +kernel
  | randomRange kind => cases kind <;> decide +kernel
  | _ => decide +kernel

end Operation

/-- What a field of a node holds. -/
inductive FieldShape where
  | anything
  | name
  | tree
  | optionalTree
  | trees
  | presentTrees
  | clauses
deriving DecidableEq

/-- A field of a node: its key and what it holds. -/
structure Field where
  key : String
  shape : FieldShape
deriving DecidableEq

/-- Whether a binary operation is written as the negation of a single operand. -/
def BinaryOp.isNegation (written : Table Value) (op : BinaryOp) : Bool :=
  op = .calculate .subtract && written.has "value" && !written.has "left"

/-- Whether a connective is written between a left and a right operand. -/
def writtenBetween (written : Table Value) : Bool :=
  !written.has "values"

/-- The fields that an operation is written in, given the keys that are present. -/
def Operation.fields (written : Table Value) : Operation → List Field
  | .literal => [⟨"value", .anything⟩]
  | .array => [⟨"values", .trees⟩]
  | .lookup => [⟨"var", .name⟩]
  | .assign => [⟨"var", .name⟩, ⟨"value", .tree⟩]
  | .sequence => [⟨"seq", .trees⟩]
  | .cond => [⟨"cond", .clauses⟩]
  | .index => [⟨"base", .tree⟩, ⟨"index", .tree⟩]
  | .includes => [⟨"collection", .tree⟩, ⟨"value", .tree⟩]
  -- A negation has one operand, a comparison or calculation two.
  | .binary op =>
    if op.isNegation written then [⟨"value", .tree⟩]
    else [⟨"left", .tree⟩, ⟨"right", .tree⟩]
  | .connective _ =>
    if writtenBetween written then [⟨"left", .tree⟩, ⟨"right", .tree⟩] else [⟨"values", .trees⟩]
  | .fold _ => [⟨"values", .presentTrees⟩]
  | .unary _ => [⟨"value", .tree⟩]
  | .randomRange _ => [⟨"min", .tree⟩, ⟨"max", .tree⟩, ⟨"unit", .optionalTree⟩]
  | .bernoulliTrial => [⟨"p", .tree⟩, ⟨"unit", .optionalTree⟩]
  | .bernoulliFilter => [⟨"p", .tree⟩, ⟨"choices", .tree⟩, ⟨"unit", .optionalTree⟩]
  | .uniformChoice => [⟨"choices", .tree⟩, ⟨"unit", .optionalTree⟩]
  | .weightedChoice => [⟨"choices", .tree⟩, ⟨"weights", .tree⟩, ⟨"unit", .optionalTree⟩]
  | .sample => [⟨"choices", .tree⟩, ⟨"draws", .optionalTree⟩, ⟨"unit", .optionalTree⟩]

/-- The operation of a node, or what is wrong with its tag. -/
def operationOf (written : Table Value) : Except Defect Operation :=
  match written.lookup? "op" with
  -- A tag of null counts as a missing one.
  | none | some .null => .error .noOperation
  | some (.str name) =>
    match Operation.ofName? name with
    | some op => .ok op
    | none => .error (.unknownOperation (.str name))
  | some other => .error (.unknownOperation other)

end TrialScript
