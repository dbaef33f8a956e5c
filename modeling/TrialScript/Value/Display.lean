import TrialScript.Text.Quoted
import TrialScript.Value.Basic

/-! Texts of values in messages: quoted strings, fields in order, and names of kinds. -/

namespace TrialScript

/-- The text of a scalar, with a string in quotes. -/
def Scalar.display : Scalar → String
  | .null => "None"
  | .bool value => if value then "True" else "False"
  | .num value => value.text
  | .str value => quoted value

namespace Value

mutual

/-- The text of a value, with every string in quotes. -/
def display : Value → String
  | .scalar value => value.display
  | .list items => "[" ++ ", ".intercalate (displayItems items) ++ "]"
  | .dict fields => "\x7b" ++ ", ".intercalate (displayFields fields) ++ "\x7d"
  | .date value => value.display
  | .datetime value => value.display

/-- The texts of items. -/
def displayItems : List Value → List String
  | [] => []
  | item :: rest => display item :: displayItems rest

/-- The texts of fields, each a quoted name and a value. -/
def displayFields : List (String × Value) → List String
  | [] => []
  | (name, value) :: rest => (quoted name ++ ": " ++ display value) :: displayFields rest

end

/-- The text of a value on its own, where a string has no quotes. -/
def text : Value → String
  | .str value => value
  | .date value => value.text
  | .datetime value => value.text " "
  | value => display value

/-- The name of the kind of a value. -/
def kindName : Value → String
  | .null => "NoneType"
  | .bool _ => "bool"
  | .num (.int _) => "int"
  | .num (.float _) => "float"
  | .str _ => "str"
  | .list _ => "list"
  | .dict _ => "dict"
  | .date _ => "date"
  | .datetime _ => "datetime"

end Value
end TrialScript
