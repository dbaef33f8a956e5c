import TrialScript.Fault
import TrialScript.Tree.Operation
import TrialScript.Value.Order

/-! Descriptions of the values that a variable may take, and their wire shapes. -/

namespace TrialScript

/-- The name of a kind of range. -/
def RangeKind.name : RangeKind → String
  | .float => "float"
  | .integer => "integer"

/-- The kind of range that a name stands for. -/
def RangeKind.ofName? (name : String) : Option RangeKind :=
  [RangeKind.float, .integer].find? fun kind => kind.name == name

/-- What is known about a value; the null atom says that nothing is known. -/
inductive Description where
  | atom (value : Value)
  | range (kind : RangeKind) (low high : Value)
  | select (limit : Value) (options : List Description)
  | array (items : List Description)
  | object (value : Value)
  | union (variants : List Description)

namespace Description

/-- The description that says nothing. -/
@[match_pattern] abbrev unknown : Description := .atom .null

instance : Inhabited Description := ⟨unknown⟩

/-- Exactly one of some options. -/
def oneOf (options : List Description) : Description :=
  .select (.int 1) options

/-- Either truth value. -/
def boolean : Description :=
  oneOf [.atom (.bool false), .atom (.bool true)]

/-- Whether nothing is known. -/
def isUnknown : Description → Bool
  | .unknown => true
  | _ => false

/-- The number that a description stands for, where it is exactly one. -/
def number? : Description → Option Number
  | .atom value => value.number?
  | _ => none

/-- Whether this is more than an exact value. -/
def isStructured : Description → Bool
  | .atom _ => false
  | _ => true

mutual

/-- The description of a known value. -/
def ofLiteral : Value → Description
  | .list items => .array (ofLiterals items)
  | .dict fields => .object (.dict fields)
  | value => .atom value

/-- The descriptions of known values. -/
def ofLiterals : List Value → List Description
  | [] => []
  | item :: rest => ofLiteral item :: ofLiterals rest

end

mutual

/-- The wire shape of a description. -/
def toValue : Description → Value
  | .atom value => value
  | .range kind low high => .dict [("type", .str kind.name), ("min", low), ("max", high)]
  | .select limit options =>
    .dict [("type", .str "select"), ("limit", limit), ("values", .list (toValues options))]
  | .array items => .dict [("type", .str "array"), ("values", .list (toValues items))]
  | .object value => .dict [("type", .str "literal"), ("value", value)]
  | .union variants =>
    .dict [("type", .str "union"), ("variants", .list (toValues variants))]

/-- The wire shapes of descriptions. -/
def toValues : List Description → List Value
  | [] => []
  | item :: rest => toValue item :: toValues rest

end

mutual

/-- Whether two descriptions are equal; exact values compare strictly, so one is not true. -/
def same : Description → Description → Bool
  -- Exact values are compared with their kinds; bounds, limits and mappings as plain values.
  | .atom left, .atom right => left.sameAtomic right
  | .range kind low high, .range kind' low' high' =>
    kind == kind' && low.equals low' && high.equals high'
  | .select limit options, .select limit' options' =>
    limit.equals limit' && sameItems options options'
  | .array items, .array items' => sameItems items items'
  | .object value, .object value' => value.equals value'
  | .union variants, .union variants' => sameItems variants variants'
  | _, _ => false

/-- Whether two lists of descriptions are equal, item by item. -/
def sameItems : List Description → List Description → Bool
  | [], [] => true
  | left :: lefts, right :: rights => same left right && sameItems lefts rights
  | _, _ => false

end

/-- Adds a description at the end, unless an equal one is there. -/
def addNew (seen : List Description) (item : Description) : List Description :=
  if seen.any (same item) then seen else seen ++ [item]

/-- The descriptions without later ones that equal an earlier one. -/
def distinct (items : List Description) : List Description :=
  items.foldl addNew []

/-- The alternatives that a variant stands for: none if unknown, its own if it is a union. -/
def alternatives : Description → List Description
  | .unknown => []
  | .union variants => variants
  | variant => [variant]

/-- The union of variants: unions among them are opened, and one variant stands for itself. -/
def unionOf (variants : List Description) : Description :=
  match distinct (variants.flatMap alternatives) with
  | [] => .unknown
  | [variant] => variant
  | variants => .union variants

/-- The value in a field that must be there. -/
def required (name : String) (fields : Table Value) : Except Fault Value :=
  match fields.lookup? name with
  | some value => .ok value
  | none => .error (.noEntry name)

mutual

/-- Reads a description from its wire shape; a mapping of no known type describes itself. -/
def read : Value → Except Fault Description
  | .list items => do return .array (← readItems items)
  -- A mapping is a description if its type says so, and otherwise an exact mapping.
  | .dict fields =>
    match Table.lookup? "type" fields with
    | some (.str "select") => do
      let limit ← required "limit" fields
      return .select limit (← readField "values" fields)
    | some (.str "array") => do return .array (← readField "values" fields)
    | some (.str "literal") => do return .object (← required "value" fields)
    -- The variants of a union are flattened and told apart again.
    | some (.str "union") => do return unionOf (← readField "variants" fields)
    | some (.str name) =>
      match RangeKind.ofName? name with
      | some kind => do return .range kind (← required "min" fields) (← required "max" fields)
      -- An unknown type makes it an exact mapping as well.
      | none => .ok (.object (.dict fields))
    | _ => .ok (.object (.dict fields))
  | value => .ok (.atom value)

/-- Reads descriptions in order. -/
def readItems : List Value → Except Fault (List Description)
  | [] => .ok []
  | item :: rest => do return (← read item) :: (← readItems rest)

/-- Reads the descriptions that a field lists. -/
def readField (name : String) : List (String × Value) → Except Fault (List Description)
  | [] => .error (.noEntry name)
  | (key, value) :: rest =>
    if key = name then
      match value with
      | .list items => readItems items
      | other =>
        -- Characters and names are exact values of their own.
        match other.elements? with
        | some elements => .ok (elements.map .atom)
        | none => .error .wrongKind
    else readField name rest

end

/-- A range of a kind given by name. -/
def rangeOf (kind low high : Value) : Except Fault Description :=
  match kind with
  | .str name =>
    match RangeKind.ofName? name with
    | some kind => .ok (.range kind low high)
    | none => .error (.badRangeKind (.str name))
  | other => .error (.badRangeKind other)

end Description
end TrialScript
