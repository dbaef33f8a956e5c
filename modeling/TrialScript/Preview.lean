import TrialScript.Description.Combine
import TrialScript.Description.Merge
import TrialScript.Script

/-! Previews: a script describes, without chance, every value that its variables may take. -/

namespace TrialScript

/-- A computation on described variables that may stop with a fault, keeping changes made so far. -/
abbrev Survey := ExceptT Fault (StateM (Store Description))

/-- Gives a variable a description, merged with the one it has. -/
def describe (name : String) (description : Description) : Survey Description := do
  let merged ← Description.merge ((← get).get name .unknown) description
  modify fun symbols => symbols.assign name merged
  return merged

/-- Runs a branch on a layer of its own, and gives what the branch assigned. -/
def inBranch (branch : Survey Description) : Survey (Table Description) :=
  -- The layers below are the same afterwards, also where the branch stops with a fault.
  ExceptT.mk fun outer =>
    match branch.run outer.push with
    | (.ok _, inner) => (.ok inner.locals, outer)
    | (.error fault, _) => (.error fault, outer)

/-- Adds what one branch assigned to what each name was assigned before. -/
def collectBranch (collected : Table (List Description)) (branch : Table Description) :
    Table (List Description) :=
  branch.foldl
    (fun collected (name, description) =>
      collected.put name ((collected.lookup? name).getD [] ++ [description]))
    collected

/-- Assigns to each name the joined descriptions of all branches. -/
def assignJoined : Table (List Description) → Survey Unit
  | [] => return ()
  | (name, descriptions) :: rest => do
    let joined ← Description.join descriptions
    modify fun symbols => symbols.assign name joined
    assignJoined rest

/-- The description of a length. -/
def describeLength : Description → Description
  | .atom (.str text) => .atom (.int text.length)
  | .array items => .atom (.int items.length)
  | .select _ options => .range .integer (.int 0) (.int options.length)
  | _ => .unknown

/-- The description of the result of a unary operation. -/
def describeUnary (operand : Description) : UnaryOp → Except Fault Description
  | .finish => .ok operand
  | .not => .ok .boolean
  | .round => operand.round
  | .negate => operand.combine .multiply (.atom (.int (-1)))
  | .length => .ok (describeLength operand)

/-- The description of the result of folding descriptions. -/
def describeFold (op : FoldOp) : List Description → Except Fault Description
  | [] => .ok .unknown
  | first :: rest => rest.foldlM (Description.combine op.function) first

/-- The description of a part of a described mapping. -/
def describeField (object : Value) (name : String) : Except Fault Description :=
  match object with
  | .dict fields => .ok ((Table.lookup? name fields).elim .unknown .ofLiteral)
  | other =>
    -- Only a mapping has fields, but a list or a text can be seen not to hold the name.
    match other.holds? (.str name) with
    | some false => .ok .unknown
    | _ => .error .wrongKind

/-- The description of a part of a list or a mapping. -/
def describePart (base key : Description) : Except Fault Description :=
  match base, key with
  -- A number is converted first; where it is no position of the list, every item is possible.
  | .array items, key => do
    let chosen ← match key.number? with
      | some position => do
        discard position.toFloat
        pure (position.position?.bind fun index => items[index]?)
      | none => pure none
    match chosen with
    | some item => return item
    | none => return if items.isEmpty then .unknown else .oneOf items
  | .object object, .atom (.str name) => describeField object name
  | _, _ => .ok .unknown

/-- The description of a number between described bounds. -/
def describeRange (kind : RangeKind) (low high : Description) : Description :=
  match low.number?, high.number? with
  | some low, some high => .range kind (.num low) (.num high)
  | _, _ => .unknown

/-- The description of some of the described choices, at most as many as a limit says. -/
def describeChoices (limit : List Description → Value) : Description → Description
  | .array items => .select (limit items) items
  | _ => .unknown

/-- The limit that allows all options. -/
def allOf (items : List Description) : Value :=
  .int items.length

/-- The limit that allows one option. -/
def onlyOne (_ : List Description) : Value :=
  .int 1

mutual

/-- Describes the result of a script, visiting every branch whether or not it would run. -/
def preview : Tree → Survey Description
  | .scalar value => return .atom (.scalar value)
  | .literal value => return .ofLiteral value
  | .array items => do return .array (← previewItems items)
  | .lookup name => do return (← get).get name .unknown
  | .assign name value => do describe name (← preview value)
  | .sequence steps => previewSteps .unknown steps
  -- Each branch is previewed on a layer of its own; a name is joined over all branches that assign
  -- it.
  | .cond clauses => do
    let branches ← previewClauses clauses
    assignJoined (branches.foldl collectBranch [])
    return .unknown
  | .binary (.calculate op) left right => do
    let left ← preview left
    let right ← preview right
    left.combine op.function right
  -- Both sides may assign, so both are previewed, and the comparison can come out either way.
  | .binary _ left right => do
    let _ ← preview left
    let _ ← preview right
    return .boolean
  | .connective _ operands => do
    let _ ← previewItems operands
    return .boolean
  | .fold op operands => do describeFold op (← previewItems operands)
  | .unary op operand => do describeUnary (← preview operand) op
  | .randomRange kind low high _ => do
    let low ← preview low
    let high ← preview high
    return describeRange kind low high
  -- Neither the probability nor the unit is previewed.
  | .bernoulliTrial _ _ => return .oneOf [.atom (.int 0), .atom (.int 1)]
  | .bernoulliFilter _ choices _ => do return describeChoices allOf (← preview choices)
  | .uniformChoice choices _ => do return describeChoices onlyOne (← preview choices)
  | .weightedChoice choices _ _ => do return describeChoices onlyOne (← preview choices)
  -- Without a number of draws all choices are drawn.
  | .sample choices draws _ => do
    let choices ← preview choices
    if draws.isNull then return describeChoices allOf choices
    match choices with
    | .array items =>
      match (← preview draws).number? with
      | some limit => return .select (.num limit) items
      | none => return .unknown
    | _ => return .unknown
  | .index base key => do
    let base ← preview base
    let key ← preview key
    describePart base key
  | .includes collection item => do
    let _ ← preview collection
    let _ ← preview item
    return .boolean

/-- Describes items in order. -/
def previewItems : List Tree → Survey (List Description)
  | [] => return []
  | item :: rest => do return (← preview item) :: (← previewItems rest)

/-- Describes steps in order, and gives the description of the last one. -/
def previewSteps (last : Description) : List Tree → Survey Description
  | [] => return last
  | step :: rest => do previewSteps (← preview step) rest

/-- Describes every guard, and every body on a layer of its own. -/
def previewClauses : List (Tree × Tree) → Survey (List (Table Description))
  | [] => return []
  | (guard, body) :: rest => do
    let _ ← preview guard
    let branch ← inBranch (preview body)
    return branch :: (← previewClauses rest)

end

/-- The names of the nodes that are described as truth values, whatever their operands are. -/
def truthNames : List String :=
  ["equals", "<", "<=", ">", ">=", "and", "or", "not", "includes"]

/-- The other names by which nodes are described, each with the operation described by it. -/
def describers : Table Operation := [
  ("literal", .literal), ("array", .array), ("get", .lookup), ("set", .assign),
  ("seq", .sequence), ("cond", .cond), ("index", .index),
  ("randomFloat", .randomRange .float), ("randomInteger", .randomRange .integer),
  ("bernoulliTrial", .bernoulliTrial), ("bernoulliFilter", .bernoulliFilter),
  ("uniformChoice", .uniformChoice), ("weightedChoice", .weightedChoice), ("sample", .sample),
  -- The names of one operand have handlers of their own here.
  ("return", .unary .finish), ("round", .unary .round), ("negative", .unary .negate),
  ("length", .unary .length),
  ("%", .binary (.calculate .remainder)), ("/", .binary (.calculate .divide)),
  ("-", .binary (.calculate .subtract)),
  ("sum", .fold .sum), ("product", .fold .product), ("min", .fold .least),
  ("max", .fold .greatest)]

/-- Describes a node of one operand that was put together without being read. -/
def previewDispatch (operation operand : Value) : Survey Description :=
  match operation with
  -- The table of truth values is looked at before that of the handlers.
  | .str name =>
    if name ∈ truthNames then return .boolean
    else
      match describers.lookup? name with
      | some .literal => return .ofLiteral operand
      | some .bernoulliTrial => preview (.bernoulliTrial .null .null)
      | some (.unary op) => describeUnary (.atom operand) op
      | some _ => throw .noMember
      | none => throw (.unsupported operation [])
  | .list _ | .dict _ => throw .wrongKind
  | _ => throw (.unsupported operation [])

/-- The described variables of a survey with some inputs, whose layer is always a fresh one. -/
def Inputs.symbols : Inputs Description → Store Description
  | .store symbols => symbols.push
  | inputs => inputs.variables

/-- Reads the wire shapes of described inputs. -/
def readSymbols : Table Value → Except Fault (Table Description)
  | [] => .ok []
  | (name, value) :: rest => do
    return (name, ← Description.read value) :: (← readSymbols rest)

/-- Describes every variable of a read script, inputs included. -/
def inspectTree (tree : Tree) (inputs : Inputs Description) :
    Except Fault (Table Description) :=
  match (preview tree).run inputs.symbols with
  | (.ok _, symbols) => .ok symbols.toTable
  | (.error fault, _) => .error fault

/-- Describes every variable of a script, whose inputs may be wire shapes. -/
def inspect (script : Value) (inputs : Except Fault (Inputs Description)) :
    Except Fault (Table Description) := do
  -- The script is read before its inputs.
  let tree ← Tree.parse script
  inspectTree tree (← inputs)

end TrialScript
