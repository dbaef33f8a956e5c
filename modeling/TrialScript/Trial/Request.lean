import TrialScript.Numeric.Numeral
import TrialScript.Trial.Draw
import TrialScript.Value.Order

/-! Requests to a trial from outside a script, with operands that are any values. -/

namespace TrialScript

/-- One request to a trial. -/
inductive Request where
  | get (name : String) (default : Value)
  | set (name : String) (value : Value)
  | delete (name : String)
  | hash (salt : Value)
  | unit (salt : Value)
  | integerBetween (low high salt : Value)
  | floatBetween (low high salt : Value)
  | uniformChoice (choices salt : Value)
  | weightedChoice (choices weights salt : Value)
  | sample (choices draws salt : Value)
  | bernoulliFilter (choices probability salt : Value)
  | bernoulliTrial (probability salt : Value)
  | disable
  | markReturned

namespace Request

/-- The number that an operand counts as. -/
def quantity (operand : Value) : Except Fault Number :=
  match operand.quantity? with
  | some number => .ok number
  | none => .error .wrongKind

/-- The elements of an operand. -/
def elements (operand : Value) : Except Fault (List Value) :=
  match operand.elements? with
  | some items => .ok items
  | none => .error .wrongKind

/-- The number of draws that an operand asks for, where null asks for all. -/
def draws : Value → Except Fault (Option Number)
  | .null => .ok none
  | operand => some <$> quantity operand

/-- The elements that can be taken by position; a mapping with elements has no positions. -/
def positioned : Value → Except Fault (List Value)
  | .dict (_ :: _) => .error (.noEntry "0")
  | operand => elements operand

/-- The last of the elements that can be taken by position. -/
def lastElement (operand : Value) : Except Fault Value := do
  elementAt (← positioned operand) (-1)

mutual

/-- The lengths of nested lists, level by level, where all lists of one level are alike. -/
def lengths? : Value → Option (List Nat)
  | .list items => (commonLengths? items).map (items.length :: ·)
  | _ => some []

/-- The lengths that all items have in common. -/
def commonLengths? : List Value → Option (List Nat)
  | [] => some []
  | [item] => lengths? item
  | item :: rest => do
    let lengths ← lengths? item
    if (← commonLengths? rest) = lengths then some lengths else none

end

/-- The number that a weight counts as: texts are read as numerals, and null is undefined. -/
def weight : Value → Except Fault Binary64
  | .null => .ok .nan
  | .str text =>
    match Numeral.read? text.toList with
    | some number => .ok number
    | none => .error (.notNumeral text)
  | operand => do (← quantity operand).toFloat

/-- All weights in an operand, with nested lists opened where they are alike. -/
def weights (operand : Value) : Except Fault (List Binary64) :=
  if (lengths? operand).isSome then (Salt.flatten operand).mapM weight
  else .error .unevenWeights

/-- The choice among elements that the weights in an operand lead to. -/
def chooseWeighted (trial : Trial) (choices operand salt : Value) : Except Fault Value := do
  let items ← elements choices
  -- Without choices the weights are not looked at.
  Trial.admitWeights items (← if items.isEmpty then .ok [] else elements operand)
  let totals := Trial.totals (← weights operand)
  match ← trial.firstReaching? items totals salt with
  | some choice => return choice
  | none => lastElement choices

/-- Demands bounds in order, of any kind that can be ordered. -/
def admitBounds (low high : Value) : Except Fault Unit :=
  match high.before? low with
  | none => .error .wrongKind
  | some true => .error (.invertedBounds low high)
  | some false => .ok ()

/-- The answer of a trial to a request for a draw or a value. -/
def answer (trial : Trial) : Request → Except Fault Value
  | .get name default => .ok (trial.variables.get name default)
  | .hash salt => .ok (.int (trial.hash salt))
  | .unit salt => do return .float (← trial.fraction salt)
  | .integerBetween low high salt => do
    admitBounds low high
    return .num (← trial.integerBetween (← quantity low) (← quantity high) salt)
  | .floatBetween (.date low) (.date high) salt => do
    return .date (← trial.dateBetween low high salt)
  | .floatBetween (.datetime low) (.datetime high) salt => do
    return .datetime (← trial.momentBetween low high salt)
  | .floatBetween low high salt => do
    return .num (← trial.floatBetween (← quantity low) (← quantity high) salt)
  | .uniformChoice choices salt => do trial.uniformChoice (← positioned choices) salt
  | .weightedChoice choices weights salt => chooseWeighted trial choices weights salt
  | .sample choices count salt => do
    return .list (← trial.sample (← elements choices) (← draws count) salt)
  | .bernoulliFilter choices probability salt => do
    let p ← quantity probability
    -- The probability is checked before the choices are looked at.
    Trial.admitProbability p
    return .list (← trial.bernoulliFilter (← elements choices) p salt)
  | .bernoulliTrial probability salt => do
    return .int (← trial.bernoulliTrial (← quantity probability) salt)
  | .set .. | .delete _ | .disable | .markReturned => .ok .null

/-- What a request does to a trial. -/
def effect (trial : Trial) : Request → Trial
  | .set name value => trial.assign name value
  | .delete name => trial.clear name
  | .disable => trial.disable
  | .markReturned => trial.markReturned
  | _ => trial

/-- Answers a request and carries out what it does. -/
def perform (request : Request) : Run Value :=
  ExceptT.mk fun trial => (request.answer trial, request.effect trial)

end Request
end TrialScript
