import TrialScript.Json.Writer
import TrialScript.Value.Display

/-! Salts: any value becomes a row of component texts, in which nesting leaves no trace. -/

namespace TrialScript.Salt

mutual

/-- The components of a salt in order, with every list opened. -/
def flatten : Value → List Value
  | .list items => flattenItems items
  | value => [value]

/-- The components of items in order. -/
def flattenItems : List Value → List Value
  | [] => []
  | item :: rest => flatten item ++ flattenItems rest

end

/-- The text of a number: whole ones below a bound are written without a point. -/
def numberText : Number → String
  | .int value => integerText value
  | .float .nan => "NaN"
  | .float (.infinite negative) => if negative then "-Infinity" else "Infinity"
  | .float value =>
    -- Whole numbers of up to twenty-one digits are written without a point.
    if value.isIntegral && decide (value.magnitude < 10 ^ 21 * Binary64.unitsPerOne) then
      integerText value.truncate
    else value.text

/-- The text of one component. -/
def componentText : Value → String
  | .null => ""
  | .bool value => if value then "true" else "false"
  | .num value => numberText value
  | .str value => value
  -- A mapping is written in compact form, with its fields in order.
  | .dict fields => Json.write .compact (.dict fields)
  | value => value.text

/-- The texts of all components of a salt. -/
def texts (salt : Value) : List String :=
  (flatten salt).map componentText

/-- The text that is digested: the components of a name and a salt, joined by a separator. -/
def joined (separator : String) (name salt : Value) : String :=
  separator.intercalate (texts (.list [name, salt]))

end TrialScript.Salt
