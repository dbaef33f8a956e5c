import TrialScript.Digest.Block

/-! The SHA-1 digest of a message. -/

namespace TrialScript.Digest.Sha1

/-- The chaining state of five words. -/
structure State where
  a : UInt32
  b : UInt32
  c : UInt32
  d : UInt32
  e : UInt32

/-- The state before the first block. -/
def initial : State :=
  ⟨0x67452301, 0xefcdab89, 0x98badcfe, 0x10325476, 0xc3d2e1f0⟩

/-- The next word of a schedule from the words before it. -/
def recurrence (recent : List UInt32) : UInt32 :=
  rotateLeft (wordBack recent 3 ^^^ wordBack recent 8 ^^^ wordBack recent 14 ^^^
    wordBack recent 16) 1

/-- The eighty words that one block supplies to the rounds. -/
def schedule (block : List UInt32) : List UInt32 :=
  (extend recurrence 64 block.reverse).reverse

/-- The mixing function of a round. -/
def mix (round : Nat) (s : State) : UInt32 :=
  if round < 20 then (s.b &&& s.c) ||| (~~~s.b &&& s.d)
  else if round < 40 then s.b ^^^ s.c ^^^ s.d
  else if round < 60 then (s.b &&& s.c) ||| (s.b &&& s.d) ||| (s.c &&& s.d)
  else s.b ^^^ s.c ^^^ s.d

/-- The constant of a round. -/
def constant (round : Nat) : UInt32 :=
  if round < 20 then 0x5a827999
  else if round < 40 then 0x6ed9eba1
  else if round < 60 then 0x8f1bbcdc
  else 0xca62c1d6

/-- Applies the rounds from a given one on, one for each word. -/
def rounds (round : Nat) (s : State) : List UInt32 → State
  | [] => s
  | word :: rest =>
    let next := rotateLeft s.a 5 + mix round s + s.e + constant round + word
    rounds (round + 1) ⟨next, s.a, rotateLeft s.b 30, s.c, s.d⟩ rest

/-- Folds one block into the state. -/
def compress (s : State) (block : List UInt32) : State :=
  let mixed := rounds 0 s (schedule block)
  ⟨s.a + mixed.a, s.b + mixed.b, s.c + mixed.c, s.d + mixed.d, s.e + mixed.e⟩

/-- The digest of a message as forty hexadecimal digits. -/
def digest (message : List UInt8) : List Char :=
  let s := (blocks message).foldl compress initial
  hexText [s.a, s.b, s.c, s.d, s.e]

end TrialScript.Digest.Sha1
