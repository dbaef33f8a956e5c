import TrialScript.Digest.Sha256
import TrialScript.Preview

/-! Reports: results as plain values, as JSON texts, and scripts as fingerprints. -/

namespace TrialScript

namespace Value

mutual

/-- The value with every calendar value written as text. -/
def plain : Value → Value
  | .scalar value => .scalar value
  | .list items => .list (plainItems items)
  | .dict fields => .dict (plainFields fields)
  | .date value => .str value.text
  | .datetime value => .str (value.text "T")

/-- The plain values of items. -/
def plainItems : List Value → List Value
  | [] => []
  | item :: rest => plain item :: plainItems rest

/-- The plain values of fields. -/
def plainFields : List (String × Value) → List (String × Value)
  | [] => []
  | (name, value) :: rest => (name, plain value) :: plainFields rest

end

end Value

/-- A finished trial as a value. -/
def Trial.toValue (trial : Trial) : Value :=
  .dict [("name", .str trial.name), ("enabled", .bool trial.enabled),
    ("params", .dict trial.variables.toTable)]

/-- Described variables as a value. -/
def metadataValue (symbols : Table Description) : Value :=
  .dict [("parameters", .dict (symbols.map fun (name, description) =>
    (name, description.toValue)))]

/-- A layout with one level indented by a number of blanks or by a text, or none at all. -/
def reportLayout : Value → Except Fault Json.Layout
  | .null => .ok .spaced
  | .str indent => .ok (.indented indent)
  | other =>
    match other.count? with
    | some width => do return .indented (← repeatText width " ")
    | none => .error .wrongKind

/-- The JSON text of a result, laid out for readers. -/
def reportText (indent : Value) (value : Value) : Except Fault String :=
  match value.plain with
  | .str text => .ok (Json.string text)
  | plain => do return Json.write (← reportLayout indent) plain

/-- The JSON text of a result without a blank, the same for every order of names. -/
def canonicalText (value : Value) : String :=
  Json.write .compact value.plain

/-- The digest of the canonical text of a tree, in hexadecimal. -/
def Tree.digest (tree : Tree) : List Char :=
  Digest.Sha256.digest (canonicalText tree.toValue).toUTF8.toList

/-- A short name for a tree, cut from its digest. -/
def Tree.fingerprint (tree : Tree) (length : Value) : Except Fault String := do
  return String.ofList (← cutBy length tree.digest)

end TrialScript
