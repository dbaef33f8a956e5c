import TrialScript.Tree.Problem

/-! Faults: why reading, running or describing a script stops. -/

namespace TrialScript

/-- What is wrong with one field of the digest settings. -/
inductive PolicyProblem where
  | separatorKind (kind : String)
  | digitsKind (kind : String)
  | digitsRange (found : Int)
deriving DecidableEq

/-- The most hexadecimal digits whose value is exact as a binary64 number. -/
def mostHexDigits : Nat := 13

/-- The wording of a problem with the digest settings. -/
def PolicyProblem.message : PolicyProblem → String
  | .separatorKind kind => "separator must be a string, got " ++ kind
  | .digitsKind kind => "hex_digits must be an int, got " ++ kind
  | .digitsRange found =>
    "hex_digits must be in 1.." ++ integerText mostHexDigits ++ ", got " ++ integerText found

/-- A cause that stops an operation. -/
inductive Fault where
  | unsupported (operation : Value) (path : List Segment)
  | malformed (problems : List Problem)
  | noFile (path : String)
  | notNumber (operation : String) (found : Value)
  | notArray (operation : String) (found : Value)
  | notNumbers (operation : String) (found : Value)
  | incomparable (operation : String) (left right : Value)
  | badPosition (found : Value)
  | badKey (found : Value)
  | notIndexed (found : Value)
  | notCollection (found : Value)
  | invertedBounds (low high : Value)
  | noChoices (operation : String)
  | weightCount (weights choices : Nat)
  | undefinedDraws
  | badProbability (found : Value)
  | noOperands (operation : String)
  | badPolicy (problems : List PolicyProblem)
  | badRangeKind (found : Value)
  | overflow
  | divisionByZero
  | undefinedRemainder
  | noInteger
  | noDigits
  | notNumeral (text : String)
  | unevenWeights
  | wrongKind
  | noMember
  | noEntry (name : String)
  | noItem
  | noRoom
  | notJson
deriving DecidableEq

/-- The groups of faults that a caller tells apart. -/
inductive FaultKind where
  | unsupportedOperation
  | invalidTree
  | typeMismatch
  | invalidArgument
  | overflow
  | divisionByZero
  | undefinedValue
  | wrongKind
  | missingMember
  | missingEntry
  | missingItem
  | exhausted
  | unreadableText
deriving DecidableEq

instance : Inhabited Fault := ⟨.notJson⟩

namespace Fault

/-- The group of a fault. -/
def kind : Fault → FaultKind
  | .unsupported .. => .unsupportedOperation
  | .malformed _ | .noFile _ => .invalidTree
  | .notNumber .. | .notArray .. | .notNumbers .. | .incomparable .. => .typeMismatch
  | .badPosition _ | .badKey _ | .notIndexed _ | .notCollection _ => .typeMismatch
  | .invertedBounds .. | .noChoices _ | .weightCount .. | .undefinedDraws => .invalidArgument
  | .badProbability _ | .noOperands _ | .badPolicy _ => .invalidArgument
  | .badRangeKind _ | .undefinedRemainder | .noInteger | .noDigits => .undefinedValue
  | .notNumeral _ | .unevenWeights => .undefinedValue
  | .overflow => .overflow
  | .divisionByZero => .divisionByZero
  | .wrongKind => .wrongKind
  | .noMember => .missingMember
  | .noEntry _ => .missingEntry
  | .noItem => .missingItem
  | .noRoom => .exhausted
  | .notJson => .unreadableText

/-- The wording of a fault, for the faults that have one. -/
def message? : Fault → Option String
  | .unsupported operation path =>
    some (Problem.message ⟨path, .unknownOperation operation⟩)
  | .malformed problems =>
    some ("Tree validation failed: " ++ "; ".intercalate (problems.map Problem.message))
  | .noFile path => some ("Tree file not found: " ++ path)
  | .notNumber operation found =>
    some ("'" ++ operation ++ "' expects a number, got " ++ found.display)
  | .notArray operation found =>
    some ("'" ++ operation ++ "' expects an array, got " ++ found.display)
  | .notNumbers operation found =>
    some ("'" ++ operation ++ "' expects an array of only numbers, got " ++ found.display)
  | .incomparable operation left right =>
    some ("'" ++ operation ++ "' cannot compare " ++ left.display ++ " with " ++ right.display)
  | .badPosition found => some ("'index' into an array expects a number, got " ++ found.display)
  | .badKey found => some ("'index' into a mapping expects a string key, got " ++ found.display)
  | .notIndexed found => some ("'index' expects an array or mapping, got " ++ found.display)
  | .notCollection found =>
    some ("'includes' expects an array or string collection, got " ++ found.display)
  | .invertedBounds low high =>
    some ("randomInteger requires max >= min, got min=" ++ low.text ++ ", max=" ++ high.text)
  | .noChoices operation => some (operation ++ " requires a non-empty choices list")
  | .weightCount weights choices =>
    some ("weightedChoice needs one weight per choice, got " ++ integerText weights ++
      " weights for " ++ integerText choices ++ " choices")
  | .undefinedDraws => some "sample requires a numeric draws count, got NaN"
  | .badProbability found => some ("Probability must be in [0, 1], got " ++ found.text)
  | .noOperands operation => some ("'" ++ operation ++ "' needs at least one operand")
  | .badPolicy problems =>
    some ("Invalid HashPolicy: " ++ "; ".intercalate (problems.map PolicyProblem.message))
  | .badRangeKind found =>
    some ("Range kind must be one of ('float', 'integer'), got '" ++ found.text ++ "'")
  -- Faults of the arithmetic and of the containers underneath have no wording of their own.
  | .overflow | .divisionByZero | .undefinedRemainder | .noInteger => none
  | .noDigits | .wrongKind => none
  | .notNumeral _ | .unevenWeights | .noMember | .noEntry _ => none
  | .noItem | .noRoom | .notJson => none

end Fault
end TrialScript
