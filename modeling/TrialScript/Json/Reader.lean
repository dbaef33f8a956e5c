import TrialScript.Value.Basic

/-! JSON texts read as values: numbers keep their kind, and the last entry of a name counts. -/

namespace TrialScript.Json

/-- Whether a character may stand between the parts of a text. -/
def isBlank (c : Char) : Bool :=
  c = ' ' || c = '\t' || c = '\n' || c = '\r'

/-- The text from its first character that is not blank. -/
def skipBlank (text : List Char) : List Char :=
  text.dropWhile isBlank

/-- Removes a known beginning, if the text has it. -/
def strip? : List Char → List Char → Option (List Char)
  | [], text => some text
  | _ :: _, [] => none
  | expected :: rest, c :: text => if c = expected then strip? rest text else none

/-- Four hexadecimal digits and the text after them. -/
def hexUnit? : List Char → Option (Nat × List Char)
  | a :: b :: c :: d :: rest =>
    let digits := [a, b, c, d]
    if digits.all fun c => (digitValue? c).isSome then some (valueOfDigits 16 digits, rest)
    else none
  | _ => none

/-- The character of a short escape. -/
def shortEscape? (c : Char) : Option Char :=
  if c = '\x22' || c = '\\' || c = '/' then some c
  else if c = 'n' then some '\n'
  else if c = 'r' then some '\r'
  else if c = 't' then some '\t'
  else if c = 'b' then some '\x08'
  else if c = 'f' then some '\x0c'
  else none

/-- The character of an escape whose backslash has been read, and the text after it. -/
def escaped? : List Char → Option (Char × List Char)
  | 'u' :: rest => do
    let (unit, rest) ← hexUnit? rest
    if 0xd800 ≤ unit && unit < 0xdc00 then
      -- The first half of a character counts together with a second half that follows.
      match strip? ['\\', 'u'] rest >>= hexUnit? with
      | some (second, after) =>
        if 0xdc00 ≤ second && second < 0xe000 then
          some (Char.ofNat (0x10000 + (unit - 0xd800) * 0x400 + (second - 0xdc00)), after)
        else some (Char.ofNat unit, rest)
      | none => some (Char.ofNat unit, rest)
    else some (Char.ofNat unit, rest)
  | c :: rest => (shortEscape? c).map fun meant => (meant, rest)
  | [] => none

/-- The characters of a string whose opening quote has been read, and the text after it. -/
def stringBody? : Nat → List Char → Option (List Char × List Char)
  | 0, _ => none
  | _ + 1, [] => none
  | fuel + 1, c :: rest =>
    -- The quote ends the text, and a mark announces a character in another form.
    if c = '\x22' then some ([], rest)
    else if c = '\\' then do
      let (meant, rest) ← escaped? rest
      let (tail, rest) ← stringBody? fuel rest
      some (meant :: tail, rest)
    -- A control character cannot stand for itself.
    else if c.toNat < 0x20 then none
    else do
      let (tail, rest) ← stringBody? fuel rest
      some (c :: tail, rest)

/-- A point and the digits after it, or nothing if there is no such pair. -/
def fraction (text : List Char) : List Char × List Char :=
  match text with
  | '.' :: rest =>
    let digits := rest.takeWhile Char.isDigit
    if digits.isEmpty then ([], text) else (digits, rest.dropWhile Char.isDigit)
  | _ => ([], text)

/-- The exponent after a mantissa, or nothing if there is none. -/
def exponent? (text : List Char) : Option Int × List Char :=
  match text with
  | mark :: rest =>
    if mark = 'e' || mark = 'E' then
      let (negative, digits) :=
        match rest with
        | '-' :: digits => (true, digits)
        | '+' :: digits => (false, digits)
        | digits => (false, digits)
      let power := digits.takeWhile Char.isDigit
      -- Without digits the mark is no part of the number.
      if power.isEmpty then (none, text)
      else
        let value : Int := valueOfDigits 10 power
        (some (if negative then -value else value), digits.dropWhile Char.isDigit)
    else (none, text)
  | [] => (none, text)

/-- A number whose sign has been read: an integer unless it has a fraction or an exponent. -/
def unsigned? (negative : Bool) (text : List Char) : Option (Number × List Char) :=
  -- A leading zero stands alone.
  let whole :=
    match text with
    | '0' :: _ => ['0']
    | _ => text.takeWhile Char.isDigit
  if whole.isEmpty then none
  else
    let (decimals, afterFraction) := fraction (text.drop whole.length)
    let (power, rest) := exponent? afterFraction
    if decimals.isEmpty && power.isNone then
      let value : Int := valueOfDigits 10 whole
      some (.int (if negative then -value else value), rest)
    else
      let scale := power.getD 0 - decimals.length
      some (.float (.ofDecimal negative (valueOfDigits 10 (whole ++ decimals)) scale), rest)

/-- A number, where infinity may be written as a word after a sign. -/
def number? (text : List Char) : Option (Number × List Char) :=
  match text with
  -- A minus may also stand before the word for an infinite number.
  | '-' :: rest =>
    match strip? "Infinity".toList rest with
    | some rest => some (.float (.infinite true), rest)
    | none => unsigned? true rest
  | _ => unsigned? false text

/-- The words that stand for a scalar. -/
def words : List (String × Scalar) :=
  [("null", .null), ("true", .bool true), ("false", .bool false), ("NaN", .num (.float .nan)),
    ("Infinity", .num (.float (.infinite false)))]

/-- A word that stands for a scalar, and the text after it. -/
def word? (text : List Char) : Option (Scalar × List Char) :=
  words.findSome? fun (word, value) => (strip? word.toList text).map fun rest => (value, rest)

mutual

/-- A value at the start of a text, and the text after it. -/
def value? : Nat → List Char → Option (Value × List Char)
  | 0, _ => none
  | fuel + 1, text =>
    match text with
    -- The first character tells what kind of value comes next.
    | '\x22' :: rest =>
      (stringBody? rest.length.succ rest).map fun (body, rest) => (.str (String.ofList body), rest)
    | '[' :: rest =>
      match skipBlank rest with
      | ']' :: rest => some (.list [], rest)
      | rest => (items? fuel rest).map fun (items, rest) => (.list items, rest)
    | '\x7b' :: rest =>
      match skipBlank rest with
      | '\x7d' :: rest => some (.dict [], rest)
      | rest => (fields? fuel rest).map fun (fields, rest) => (.dict (Table.ofEntries fields), rest)
    | _ =>
      match word? text with
      | some (value, rest) => some (.scalar value, rest)
      | none => (number? text).map fun (value, rest) => (.num value, rest)

/-- Items up to the bracket that closes the list. -/
def items? : Nat → List Char → Option (List Value × List Char)
  | 0, _ => none
  | fuel + 1, text => do
    let (item, rest) ← value? fuel text
    -- Only a bracket ends the list, and only a comma goes on.
    match skipBlank rest with
    | ']' :: rest => some ([item], rest)
    | ',' :: rest =>
      let (items, rest) ← items? fuel (skipBlank rest)
      some (item :: items, rest)
    | _ => none

/-- Fields up to the brace that closes the mapping. -/
def fields? : Nat → List Char → Option (List (String × Value) × List Char)
  | 0, _ => none
  | fuel + 1, text => do
    -- A name, a colon and a value make a field.
    let afterQuote ← strip? ['\x22'] text
    let (name, rest) ← stringBody? afterQuote.length.succ afterQuote
    let afterColon ← strip? [':'] (skipBlank rest)
    let (value, rest) ← value? fuel (skipBlank afterColon)
    let field := (String.ofList name, value)
    match skipBlank rest with
    | '\x7d' :: rest => some ([field], rest)
    | ',' :: rest =>
      let (fields, rest) ← fields? fuel (skipBlank rest)
      some (field :: fields, rest)
    | _ => none

end

/-- The value that a whole text denotes, if it is JSON. -/
def read? (text : String) : Option Value := do
  -- Every step of the reader takes at least one character, so the length bounds the depth.
  let characters := text.toList
  let (value, rest) ← value? (2 * characters.length + 2) (skipBlank characters)
  if (skipBlank rest).isEmpty then some value else none

end TrialScript.Json
