import TrialScript.Numeric.Binary64
import TrialScript.Text.Digits

/-! Numerals: texts read as binary64 numbers, in any script and with blanks around them. -/

namespace TrialScript

/-- The zeros of the decimal digits beyond ASCII; nine more digits follow each. -/
def digitZeros : List Nat := [
    0x660, 0x6f0, 0x7c0, 0x966, 0x9e6, 0xa66, 0xae6, 0xb66, 0xbe6, 0xc66, 0xce6, 0xd66, 0xde6,
    0xe50, 0xed0, 0xf20, 0x1040, 0x1090, 0x17e0, 0x1810, 0x1946, 0x19d0, 0x1a80, 0x1a90, 0x1b50,
    0x1bb0, 0x1c40, 0x1c50, 0xa620, 0xa8d0, 0xa900, 0xa9d0, 0xa9f0, 0xaa50, 0xabf0, 0xff10,
    0x104a0, 0x10d30, 0x11066, 0x110f0, 0x11136, 0x111d0, 0x112f0, 0x11450, 0x114d0, 0x11650,
    0x116c0, 0x11730, 0x118e0, 0x11950, 0x11c50, 0x11d50, 0x11da0, 0x16a60, 0x16ac0, 0x16b50,
    0x1d7ce, 0x1d7d8, 0x1d7e2, 0x1d7ec, 0x1d7f6, 0x1e140, 0x1e2f0, 0x1e950, 0x1fbf0]

/-- Ranges of blanks beyond ASCII. -/
def blankRanges : List (Nat × Nat) := [
    (0x85, 0x85), (0xa0, 0xa0), (0x1680, 0x1680), (0x2000, 0x200a), (0x2028, 0x2029),
    (0x202f, 0x202f), (0x205f, 0x205f), (0x3000, 0x3000)]

namespace Numeral

/-- Whether a character is a blank around a numeral. -/
def isBlank (c : Char) : Bool :=
  c = ' ' || (0x09 ≤ c.toNat && c.toNat ≤ 0x0d) ||
    blankRanges.any fun (first, last) => first ≤ c.toNat && c.toNat ≤ last

/-- The ASCII digit of a decimal digit in any script; every other character stays. -/
def plainDigit (c : Char) : Char :=
  match digitZeros.find? fun first => first ≤ c.toNat && c.toNat < first + 10 with
  | some first => Char.ofNat (48 + (c.toNat - first))
  | none => c

/-- The text without the blanks around it. -/
def trim (text : List Char) : List Char :=
  ((text.dropWhile isBlank).reverse.dropWhile isBlank).reverse

/-- Removes the underscores that stand between two digits; no other place may have one. -/
def withoutUnderscores? (before : Char) : List Char → Option (List Char)
  | [] => some []
  | '_' :: rest =>
    if before.isDigit && (rest.head?.any Char.isDigit) then withoutUnderscores? '_' rest else none
  | c :: rest => (withoutUnderscores? c rest).map (c :: ·)

/-- The digits at the start of a text, and the text after them. -/
def spanDigits (text : List Char) : List Char × List Char :=
  (text.takeWhile Char.isDigit, text.dropWhile Char.isDigit)

/-- The digits of a mantissa, how many of them follow the point, and the text after them. -/
def mantissa? (text : List Char) : Option (List Char × Nat × List Char) :=
  let (whole, rest) := spanDigits text
  -- The point and what follows it may be left out, but not all digits.
  let (fraction, rest) :=
    match rest with
    | '.' :: rest => spanDigits rest
    | rest => ([], rest)
  if whole.isEmpty && fraction.isEmpty then none
  else some (whole ++ fraction, fraction.length, rest)

/-- The power of ten that makes up the rest of a text, zero where there is no rest. -/
def power? : List Char → Option Int
  | [] => some 0
  | mark :: rest =>
    -- Behind the mark there must be digits, and nothing else.
    if mark = 'e' || mark = 'E' then
      let (negative, digits) :=
        match rest with
        | '-' :: digits => (true, digits)
        | '+' :: digits => (false, digits)
        | digits => (false, digits)
      if digits.isEmpty || !digits.all Char.isDigit then none
      else
        let value : Int := valueOfDigits 10 digits
        some (if negative then -value else value)
    else none

/-- The number after a sign: a word in any case, or a mantissa with an optional power of ten. -/
def unsigned? (negative : Bool) (text : List Char) : Option Binary64 :=
  let word := text.map Char.toLower
  -- The words are read in any case of letters.
  if word = "inf".toList || word = "infinity".toList then some (.infinite negative)
  else if word = "nan".toList then some .nan
  else do
    let (digits, decimals, rest) ← mantissa? text
    some (.ofDecimal negative (valueOfDigits 10 digits) ((← power? rest) - decimals))

/-- The number that a text denotes, if it denotes one. -/
def read? (text : List Char) : Option Binary64 := do
  let plain ← withoutUnderscores? ' ' ((trim text).map plainDigit)
  match plain with
  | '-' :: rest => unsigned? true rest
  | '+' :: rest => unsigned? false rest
  | rest => unsigned? false rest

end Numeral
end TrialScript
