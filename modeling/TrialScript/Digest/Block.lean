import TrialScript.Text.Digits

/-! Padded messages cut into blocks of sixteen words, and words in hexadecimal. -/

namespace TrialScript.Digest

/-- The number of zero bytes that complete the last block beside a delimiter and a length. -/
def paddingZeros (size : Nat) : Nat :=
  (119 - size % 64) % 64

/-- The bits of a length in bytes, as eight bytes from the most significant. -/
def lengthBytes (size : Nat) : List UInt8 :=
  [56, 48, 40, 32, 24, 16, 8, 0].map fun shift => UInt8.ofNat (8 * size / 2 ^ shift)

/-- A message with its delimiter, zeros and length, a whole number of blocks. -/
def pad (message : List UInt8) : List UInt8 :=
  message ++ 0x80 :: List.replicate (paddingZeros message.length) 0 ++ lengthBytes message.length

/-- Bytes read four at a time, the most significant first. -/
def wordsOf : List UInt8 → List UInt32
  | a :: b :: c :: d :: rest =>
    (a.toUInt32 <<< 24 ||| b.toUInt32 <<< 16 ||| c.toUInt32 <<< 8 ||| d.toUInt32) :: wordsOf rest
  | _ => []

/-- The first blocks of a run of words, at most as many as asked for. -/
def blocksOf : Nat → List UInt32 → List (List UInt32)
  | 0, _ => []
  | count + 1, words => words.take 16 :: blocksOf count (words.drop 16)

/-- The blocks of a padded message. -/
def blocks (message : List UInt8) : List (List UInt32) :=
  let words := wordsOf (pad message)
  blocksOf (words.length / 16) words

/-- A word rotated to the left. -/
def rotateLeft (word : UInt32) (bits : UInt32) : UInt32 :=
  word <<< bits ||| word >>> (32 - bits)

/-- A word rotated to the right. -/
def rotateRight (word : UInt32) (bits : UInt32) : UInt32 :=
  word >>> bits ||| word <<< (32 - bits)

/-- Words in hexadecimal, eight digits each. -/
def hexText (words : List UInt32) : List Char :=
  words.flatMap fun word => hexDigits word.toNat 8

/-- A word counted from the end of a run, read as zero where there is none. -/
def wordBack (recent : List UInt32) (distance : Nat) : UInt32 :=
  recent.getD (distance - 1) 0

/-- Extends a run of words, newest first, by a recurrence over the words before. -/
def extend (next : List UInt32 → UInt32) : Nat → List UInt32 → List UInt32
  | 0, recent => recent
  | count + 1, recent => extend next count (next recent :: recent)

end TrialScript.Digest
