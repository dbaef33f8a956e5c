import TrialScript.Tree.Basic
import TrialScript.Trial.Draw
import TrialScript.Value.Arithmetic

/-! Evaluation: a script gives a value and changes the trial that it runs in. -/

namespace TrialScript

/-- The number that an operand is, demanded by an operation. -/
def numberFor (operation : String) (operand : Value) : Except Fault Number :=
  match operand.number? with
  | some number => .ok number
  | none => .error (.notNumber operation operand)

/-- The items of a list operand, demanded by an operation. -/
def arrayFor (operation : String) (operand : Value) : Except Fault (List Value) :=
  match operand.items? with
  | some items => .ok items
  | none => .error (.notArray operation operand)

/-- The numbers of a list operand, demanded by an operation. -/
def numbersFor (operation : String) (operand : Value) : Except Fault (List Number) := do
  let items ← arrayFor operation operand
  match items.mapM Value.number? with
  | some numbers => return numbers
  | none => throw (.notNumbers operation (.list items))

/-- The order of two values, unless they are moments of which only one has a zone. -/
def Comparison.holds (left right : Value) : Comparison → Except Fault Bool
  | .greater => Value.whenOrdered (right.before? left)
  | .less => Value.whenOrdered (left.before? right)
  | .atLeast => do return (← Value.whenOrdered (right.before? left)) || right.equals left
  | .atMost => do return (← Value.whenOrdered (left.before? right)) || left.equals right

/-- The function that a calculation applies. -/
def Calculation.function : Calculation → Arithmetic
  | .remainder => .remainder
  | .divide => .divide
  | .subtract => .subtract

/-- The function that a fold applies to what it has and the next operand. -/
def FoldOp.function : FoldOp → Arithmetic
  | .sum => .add
  | .product => .multiply
  | .least => .least
  | .greatest => .greatest

/-- What a binary operation demands of its left operand before the right one is evaluated. -/
def BinaryOp.admit (left : Value) : BinaryOp → Except Fault Unit
  | .calculate op => discard (numberFor op.name left)
  | _ => .ok ()

/-- The result of a binary operation. -/
def BinaryOp.apply (left right : Value) : BinaryOp → Except Fault Value
  | .equals => .ok (.bool (left.equals right))
  | .order op =>
    -- The kinds are compared first, so that only values of ordered kinds are asked for their order.
    if left.comparable right then return .bool (← op.holds left right)
    else .error (.incomparable op.name left right)
  | .calculate op => do
    -- Both operands have to be numbers, and the left one is looked at first.
    let x ← numberFor op.name left
    let y ← numberFor op.name right
    return .num (← op.function.apply x y)

/-- The result of folding numbers; the extremes need at least one. -/
def FoldOp.apply (op : FoldOp) (numbers : List Number) : Except Fault Number :=
  match op, numbers with
  | .sum, numbers => numbers.foldlM op.function.apply (.int 0)
  | .product, numbers => numbers.foldlM op.function.apply (.int 1)
  | _, first :: rest => rest.foldlM op.function.apply first
  | _, [] => .error (.noOperands op.name)

/-- The result of a unary operation that only looks at its operand. -/
def UnaryOp.apply (operand : Value) : UnaryOp → Except Fault Value
  | .finish => .ok operand
  | .not => do return .bool !(← operand.truthy)
  | .round => do return .num (← (← numberFor UnaryOp.round.name operand).roundHalfAway)
  | .negate => do return .num (← numberFor UnaryOp.negate.name operand).neg
  | .length => do return .int (← arrayFor UnaryOp.length.name operand).length

/-- The item of a list at a position inside it, and null at any other. -/
def itemAt (items : List Value) (position : Number) : Except Fault Value := do
  if !position.isWhole then return .null
  if !(Number.atMost (.int 0) position && position.less (.int items.length)) then return .null
  elementAt items (← position.whole)

/-- The part of a list or a mapping that a key stands for. -/
def partAt (base key : Value) : Except Fault Value :=
  match base with
  -- A number that is no position of the list gives null.
  | .list items =>
    match key.number? with
    | some position => itemAt items position
    | none => .error (.badPosition key)
  -- A name that is not there gives null.
  | .dict fields =>
    match key with
    | .str name => .ok ((Table.lookup? name fields).getD .null)
    | other => .error (.badKey other)
  | other => .error (.notIndexed other)

/-- Whether a list has an item or a text has a part. -/
def holdsItem (collection item : Value) : Except Fault Bool :=
  match collection.holds? item with
  | some holds => .ok holds
  | none => .error (.notCollection collection)

/-- Runs a computation unless the trial has returned, when the result is null. -/
def unlessReturned (step : Run Value) : Run Value := do
  if (← get).returned then return .null else step

/-- The value of a draw between bounds. -/
def RangeKind.draw (trial : Trial) (low high : Number) (unit : Value) :
    RangeKind → Except Fault Number
  | .integer => trial.integerBetween low high unit
  | .float => trial.floatBetween low high unit

mutual

/-- Evaluates a script, which gives null without a trace once the trial has returned. -/
def evaluate : Tree → Run Value
  | .scalar value => unlessReturned (return .scalar value)
  | .literal value => unlessReturned (return value)
  | .array items => unlessReturned do return .list (← evaluateItems items)
  | .lookup name => unlessReturned do return (← get).variables.get name .null
  | .assign name value => unlessReturned do
    let value ← evaluate value
    modify (Trial.assign name value)
    return value
  | .sequence steps => unlessReturned (evaluateSteps .null steps)
  | .cond clauses => unlessReturned (evaluateClauses clauses)
  | .binary op left right => unlessReturned do
    let left ← evaluate left
    op.admit left
    let right ← evaluate right
    op.apply left right
  | .connective .all operands => unlessReturned do return .bool (← evaluateAll operands)
  | .connective .any operands => unlessReturned do return .bool (← evaluateAny operands)
  | .fold op operands => unlessReturned do
    return .num (← op.apply (← evaluateNumbers op.name operands))
  | .unary .finish operand => unlessReturned do
    let value ← evaluate operand
    modify Trial.markReturned
    -- Exactly the truth value false takes the subject out of the experiment.
    if value = .bool false then modify Trial.disable
    return value
  | .unary op operand => unlessReturned do op.apply (← evaluate operand)
  | .randomRange kind low high unit => unlessReturned do
    let low ← numberFor kind.drawName (← evaluate low)
    let high ← numberFor kind.drawName (← evaluate high)
    let unit ← evaluate unit
    return .num (← kind.draw (← get) low high unit)
  | .bernoulliTrial probability unit => unlessReturned do
    let p ← numberFor Operation.bernoulliTrial.name (← evaluate probability)
    let unit ← evaluate unit
    return .int (← (← get).bernoulliTrial p unit)
  | .bernoulliFilter probability choices unit => unlessReturned do
    let choices ← arrayFor Operation.bernoulliFilter.name (← evaluate choices)
    let p ← numberFor Operation.bernoulliFilter.name (← evaluate probability)
    let unit ← evaluate unit
    return .list (← (← get).bernoulliFilter choices p unit)
  | .uniformChoice choices unit => unlessReturned do
    let choices ← arrayFor Operation.uniformChoice.name (← evaluate choices)
    let unit ← evaluate unit
    (← get).uniformChoice choices unit
  | .weightedChoice choices weights unit => unlessReturned do
    let choices ← arrayFor Operation.weightedChoice.name (← evaluate choices)
    let weights ← numbersFor Operation.weightedChoice.name (← evaluate weights)
    let unit ← evaluate unit
    (← get).weightedChoice choices weights unit
  | .sample choices draws unit => unlessReturned do
    let choices ← arrayFor Operation.sample.name (← evaluate choices)
    let draws ←
      if draws.isNull then pure none
      else some <$> numberFor Operation.sample.name (← evaluate draws)
    let unit ← evaluate unit
    return .list (← (← get).sample choices draws unit)
  | .index base key => unlessReturned do
    let base ← evaluate base
    let key ← evaluate key
    partAt base key
  | .includes collection item => unlessReturned do
    let collection ← evaluate collection
    let item ← evaluate item
    return .bool (← holdsItem collection item)

/-- Evaluates items in order. -/
def evaluateItems : List Tree → Run (List Value)
  | [] => return []
  | item :: rest => do return (← evaluate item) :: (← evaluateItems rest)

/-- Evaluates steps in order until the trial returns, and gives the value of the last one. -/
def evaluateSteps (last : Value) : List Tree → Run Value
  | [] => return last
  | step :: rest => do
    if (← get).returned then return last
    else evaluateSteps (← evaluate step) rest

/-- Evaluates guards in order, and the body behind the first that holds. -/
def evaluateClauses : List (Tree × Tree) → Run Value
  | [] => return .null
  | (guard, body) :: rest => do
    if ← (← evaluate guard).truthy then evaluate body else evaluateClauses rest

/-- Evaluates operands in order until one does not hold. -/
def evaluateAll : List Tree → Run Bool
  | [] => return true
  | operand :: rest => do
    if ← (← evaluate operand).truthy then evaluateAll rest else return false

/-- Evaluates operands in order until one holds. -/
def evaluateAny : List Tree → Run Bool
  | [] => return false
  | operand :: rest => do
    if ← (← evaluate operand).truthy then return true else evaluateAny rest

/-- Evaluates operands in order, each of which must be a number. -/
def evaluateNumbers (operation : String) : List Tree → Run (List Number)
  | [] => return []
  | operand :: rest => do
    let number ← numberFor operation (← evaluate operand)
    return number :: (← evaluateNumbers operation rest)

end

/-- The names by which nodes are run, each with the operation that is run by it. -/
def handlers : Table Operation := [
  ("literal", .literal), ("array", .array), ("get", .lookup), ("set", .assign),
  ("seq", .sequence), ("cond", .cond), ("index", .index), ("includes", .includes),
  ("randomFloat", .randomRange .float), ("randomInteger", .randomRange .integer),
  ("bernoulliTrial", .bernoulliTrial), ("bernoulliFilter", .bernoulliFilter),
  ("uniformChoice", .uniformChoice), ("weightedChoice", .weightedChoice), ("sample", .sample),
  -- The remaining names share one handler for each number of operands.
  ("equals", .binary .equals), (">", .binary (.order .greater)), ("<", .binary (.order .less)),
  (">=", .binary (.order .atLeast)), ("<=", .binary (.order .atMost)),
  ("%", .binary (.calculate .remainder)), ("/", .binary (.calculate .divide)),
  ("-", .binary (.calculate .subtract)),
  ("and", .connective .all), ("or", .connective .any), ("sum", .fold .sum),
  ("product", .fold .product), ("min", .fold .least), ("max", .fold .greatest),
  ("return", .unary .finish), ("not", .unary .not), ("round", .unary .round),
  ("negative", .unary .negate), ("length", .unary .length)]

/-- Evaluates a node of one operand that was put together without being read. -/
def dispatch (operation operand : Value) : Run Value := unlessReturned do
  match operation with
  | .str name =>
    match handlers.lookup? name with
    | some .literal => return operand
    | some (.unary op) => evaluate (.unary op (.literal operand))
    -- Every other handler looks for a part that a node of one operand does not have.
    | some _ => throw .noMember
    | none => throw (.unsupported operation [])
  | .list _ | .dict _ => throw .wrongKind
  | _ => throw (.unsupported operation [])

end TrialScript
