/-! Digit strings: whole numbers written in base ten and sixteen, and read back. -/

namespace TrialScript

/-- The decimal digits of a natural number, most significant first. -/
def digitsOf (n : Nat) : List Char :=
  Nat.toDigits 10 n

/--
The decimal text of an integer.

Integers of any length have one, as no limit is set on the number of digits.
-/
def integerText (n : Int) : String :=
  if n < 0 then "-" ++ String.ofList (digitsOf n.natAbs) else String.ofList (digitsOf n.natAbs)

/-- A natural number padded with zeros on the left to a least width. -/
def padded (width n : Nat) : String :=
  let digits := digitsOf n
  String.ofList (List.replicate (width - digits.length) '0' ++ digits)

/-- The value of a digit in any base up to sixteen, in either case. -/
def digitValue? (c : Char) : Option Nat :=
  if c.isDigit then some (c.toNat - 48)
  else if 'a' ≤ c && c ≤ 'f' then some (c.toNat - 87)
  else if 'A' ≤ c && c ≤ 'F' then some (c.toNat - 55)
  else none

/-- The number that digits denote in a base, where other characters count as zero. -/
def valueOfDigits (base : Nat) (digits : List Char) : Nat :=
  digits.foldl (fun n c => base * n + (digitValue? c).getD 0) 0

/-- The low hexadecimal digits of a number, in lowercase. -/
def hexDigits (n : Nat) : Nat → List Char
  | 0 => []
  | width + 1 => hexDigits (n / 16) width ++ [Nat.digitChar (n % 16)]

/-- One more digit at the end scales the number by the base. -/
theorem valueOfDigits_concat (base : Nat) (digits : List Char) (c : Char) :
    valueOfDigits base (digits ++ [c]) =
      base * valueOfDigits base digits + (digitValue? c).getD 0 := by
  -- The fold reaches the last digit after all others.
  simp [valueOfDigits]

/-- Each of the sixteen digits stands for its own value. -/
theorem digitValue?_digitChar {value : Nat} (small : value < 16) :
    digitValue? (Nat.digitChar value) = some value := by
  -- Sixteen values, each checked against the three ranges.
  rcases value with _ | _ | _ | _ | _ | _ | _ | _ | _ | _ | _ | _ | _ | _ | _ | _ | value
  all_goals first | decide | omega

/-- Hexadecimal digits denote the number they were taken from, without its higher digits. -/
theorem valueOfDigits_hexDigits (n width : Nat) :
    valueOfDigits 16 (hexDigits n width) = n % 16 ^ width := by
  -- The last digit is the remainder by sixteen, and the others belong to the quotient.
  induction width generalizing n with
  | zero => simp [hexDigits, valueOfDigits, Nat.mod_one]
  | succ width ih =>
    have digit := digitValue?_digitChar (Nat.mod_lt n (show 0 < 16 by decide))
    rw [hexDigits, valueOfDigits_concat, ih, digit, Option.getD_some, Nat.pow_succ,
      Nat.mul_comm (16 ^ width) 16, Nat.mod_mul]
    omega

/-- As many hexadecimal digits are taken as asked for. -/
theorem length_hexDigits (n width : Nat) : (hexDigits n width).length = width := by
  -- Each step adds one digit at the end.
  induction width generalizing n with
  | zero => rfl
  | succ width ih => simp [hexDigits, ih]

end TrialScript
