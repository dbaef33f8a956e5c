import TrialScript.Text.Quoted
import TrialScript.Value.Basic

/-! JSON texts of values: ASCII only, with the names of every mapping in order. -/

namespace TrialScript.Json

/-- Where a text breaks into lines and what stands between its parts. -/
structure Layout where
  indent : Option String
  comma : String
  colon : String

/-- Everything on one line without a blank. -/
def Layout.compact : Layout := ⟨none, ",", ":"⟩

/-- Everything on one line with a blank after every comma and colon. -/
def Layout.spaced : Layout := ⟨none, ", ", ": "⟩

/-- One part on a line, each level indented further. -/
def Layout.indented (indent : String) : Layout := ⟨some indent, ",", ": "⟩

/-- A line break before a part at a given depth, if the layout has line breaks. -/
def Layout.break (layout : Layout) (depth : Nat) : String :=
  match layout.indent with
  | none => ""
  | some indent => "\n" ++ String.join (List.replicate depth indent)

/-- The escape of one half of a character outside the basic plane, or of a whole one inside. -/
def unitEscape (unit : Nat) : List Char :=
  '\\' :: 'u' :: hexDigits unit 4

/-- One character inside a JSON string. -/
def escape (c : Char) : List Char :=
  if c = '\x22' || c = '\\' then ['\\', c]
  else if c = '\n' then ['\\', 'n']
  else if c = '\r' then ['\\', 'r']
  else if c = '\t' then ['\\', 't']
  else if c = '\x08' then ['\\', 'b']
  else if c = '\x0c' then ['\\', 'f']
  else if 0x20 ≤ c.toNat && c.toNat < 0x7f then [c]
  else if c.toNat < 0x10000 then unitEscape c.toNat
  else
    -- Characters outside the basic plane are written as two halves.
    let rest := c.toNat - 0x10000
    unitEscape (0xd800 + rest / 0x400) ++ unitEscape (0xdc00 + rest % 0x400)

/-- A JSON string. -/
def string (text : String) : String :=
  String.ofList ('\x22' :: text.toList.flatMap escape ++ ['\x22'])

/-- A JSON number; the numbers that JSON lacks are written as words. -/
def number : Number → String
  | .int value => integerText value
  | .float .nan => "NaN"
  | .float (.infinite negative) => if negative then "-Infinity" else "Infinity"
  | .float value => value.text

/-- The JSON text of a scalar. -/
def scalar : Scalar → String
  | .null => "null"
  | .bool value => if value then "true" else "false"
  | .num value => number value
  | .str value => string value

/-- Parts between brackets, on lines of their own where the layout asks for it. -/
def bracketed (layout : Layout) (depth : Nat) (opening closing : String)
    (parts : List String) : String :=
  if parts.isEmpty then opening ++ closing
  else
    let separator := layout.comma ++ layout.break (depth + 1)
    opening ++ layout.break (depth + 1) ++ separator.intercalate parts ++
      layout.break depth ++ closing

mutual

/-- The JSON text of a value at a given depth; calendar values are written as strings. -/
def writeAt (layout : Layout) (depth : Nat) : Value → String
  | .scalar value => scalar value
  | .list items => bracketed layout depth "[" "]" (writeItems layout (depth + 1) items)
  | .dict fields =>
    -- Fields are written in order of name, whatever order the mapping has them in.
    let written := Table.sortByName (writeFields layout (depth + 1) fields)
    bracketed layout depth "\x7b" "\x7d"
      (written.map fun field => string field.1 ++ layout.colon ++ field.2)
  | .date value => string value.text
  | .datetime value => string (value.text " ")

/-- The JSON texts of items. -/
def writeItems (layout : Layout) (depth : Nat) : List Value → List String
  | [] => []
  | item :: rest => writeAt layout depth item :: writeItems layout depth rest

/-- The JSON texts of fields, each with its name. -/
def writeFields (layout : Layout) (depth : Nat) :
    List (String × Value) → List (String × String)
  | [] => []
  | (name, value) :: rest => (name, writeAt layout depth value) :: writeFields layout depth rest

end

/-- The JSON text of a value. -/
def write (layout : Layout) (value : Value) : String :=
  writeAt layout 0 value

end TrialScript.Json
