import TrialScript.Text.Digits
import TrialScript.Text.Hidden

/-! Quoted text: escapes keep hidden characters visible. -/

namespace TrialScript

namespace Quoted

/-- The mark that surrounds a text: a double quote only where it saves an escape. -/
def mark (text : List Char) : Char :=
  if text.contains '\x27' && !text.contains '\x22' then '\x22' else '\x27'

/-- One character between quotes. -/
def escape (quote c : Char) : List Char :=
  if c = quote || c = '\\' then ['\\', c]
  else if c = '\n' then ['\\', 'n']
  else if c = '\r' then ['\\', 'r']
  else if c = '\t' then ['\\', 't']
  else if !isHidden c then [c]
  else if c.toNat < 0x100 then '\\' :: 'x' :: hexDigits c.toNat 2
  else if c.toNat < 0x10000 then '\\' :: 'u' :: hexDigits c.toNat 4
  else '\\' :: 'U' :: hexDigits c.toNat 8

/-- The characters between their quotes. -/
def encode (text : List Char) : List Char :=
  let quote := mark text
  quote :: text.flatMap (escape quote) ++ [quote]

end Quoted

/-- A text in quotes. -/
def quoted (text : String) : String :=
  String.ofList (Quoted.encode text.toList)

end TrialScript
