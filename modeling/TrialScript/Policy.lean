import TrialScript.Digest.Sha1
import TrialScript.Numeric.Power
import TrialScript.Salt
import TrialScript.Text.Cut

/-! Digest policies: how a name and a salt become a whole number below a power of sixteen. -/

namespace TrialScript

/-- The hexadecimal digits of the digest of a text. -/
def digestText (text : String) : List Char :=
  Digest.Sha1.digest text.toUTF8.toList

/-- A separator between components, and how many digits of the digest are kept. -/
structure Policy where
  separator : String
  hexDigits : Nat
  hexDigits_pos : 1 ≤ hexDigits
  hexDigits_le : hexDigits ≤ mostHexDigits
deriving DecidableEq

namespace Policy

/-- A point between components, and as many digits as binary64 holds exactly. -/
def default : Policy :=
  ⟨".", mostHexDigits, by decide, by decide⟩

instance : Inhabited Policy := ⟨default⟩

/-- The largest number that the kept digits can denote. -/
def maxHash (policy : Policy) : Nat :=
  16 ^ policy.hexDigits - 1

/-- The text that is digested for a name and a salt. -/
def input (policy : Policy) (name : String) (salt : Value) : String :=
  Salt.joined policy.separator (.str name) salt

/-- The number that the kept digits of the digest denote. -/
def seed (policy : Policy) (name : String) (salt : Value) : Nat :=
  valueOfDigits 16 ((digestText (policy.input name salt)).take policy.hexDigits)

end Policy

/-- The fields of a policy as they are written, before they are checked. -/
structure Settings where
  separator : Value
  hexDigits : Value

namespace Settings

/-- The fields that a mapping gives, with defaults for those it leaves out; others are ignored. -/
def ofFields (fields : Table Value) : Settings :=
  ⟨(fields.lookup? "separator").getD (.str "."),
    (fields.lookup? "hex_digits").getD (.int mostHexDigits)⟩

/-- The fields as a mapping. -/
def toValue (settings : Settings) : Value :=
  .dict [("separator", settings.separator), ("hex_digits", settings.hexDigits)]

/-- What is wrong with the separator. -/
def separatorProblems (settings : Settings) : List PolicyProblem :=
  match settings.separator with
  | .str _ => []
  | other => [.separatorKind other.kindName]

/-- What is wrong with the number of digits. -/
def digitsProblems (settings : Settings) : List PolicyProblem :=
  match settings.hexDigits with
  | .int n => if 1 ≤ n ∧ n ≤ mostHexDigits then [] else [.digitsRange n]
  | other => [.digitsKind other.kindName]

/-- Everything that is wrong with the fields. -/
def problems (settings : Settings) : List PolicyProblem :=
  settings.separatorProblems ++ settings.digitsProblems

/-- The policy that the fields describe, if nothing is wrong with them. -/
def policy (settings : Settings) : Except Fault Policy :=
  match settings.separator, settings.hexDigits with
  | .str separator, .int n =>
    -- The two bounds are what a policy keeps as its own well-formedness.
    if within : 1 ≤ n.toNat ∧ n.toNat ≤ mostHexDigits then
      .ok ⟨separator, n.toNat, within.1, within.2⟩
    else .error (.badPolicy settings.problems)
  | _, _ => .error (.badPolicy settings.problems)

/-- The text that unchecked fields digest for a name and a salt. -/
def input (settings : Settings) (name salt : Value) : Except Fault String :=
  match settings.separator with
  | .str separator => .ok (Salt.joined separator name salt)
  | _ => .error .noMember

/-- The number that unchecked fields keep of a digest, which needs at least one digit. -/
def seed (settings : Settings) (name salt : Value) : Except Fault Nat := do
  let text ← settings.input name salt
  let digits ← cutBy settings.hexDigits (digestText text)
  if digits.isEmpty then throw .noDigits
  return valueOfDigits 16 digits

/-- One less than sixteen to the number of digits, in the kind of number that the power has. -/
def maxHash (settings : Settings) : Except Fault Number :=
  match settings.hexDigits.quantity? with
  | none => .error .wrongKind
  | some (.int n) =>
    if 0 ≤ n then .ok (.int (16 ^ n.toNat - 1))
    else do
      -- A negative count of digits makes the power a fraction, and so a float.
      let power ← Power.sixteenTo (← Number.toFloat (.int n))
      Number.sub (.float power) (.int 1)
  | some (.float x) => do Number.sub (.float (← Power.sixteenTo x)) (.int 1)

end Settings
end TrialScript
