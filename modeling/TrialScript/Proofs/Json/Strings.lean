import TrialScript.Json.Reader
import TrialScript.Json.Writer

/-! Strings in JSON: every text is read back from its escaped characters. -/

namespace TrialScript.Json

/-- The digits of a number in hexadecimal are digits. -/
theorem isSome_digitValue?_of_mem_hexDigits {n width : Nat} {c : Char}
    (member : c ∈ hexDigits n width) : (digitValue? c).isSome = true := by
  -- By induction on the width: each digit is that of a remainder by sixteen.
  induction width generalizing n with
  | zero => cases member
  | succ width ih =>
    rcases List.mem_append.mp member with front | last
    · exact ih front
    · rw [List.mem_singleton.mp last, digitValue?_digitChar (Nat.mod_lt n (by decide))]
      rfl

section Escapes

variable {unit : Nat} {rest : List Char}

/-- Four hexadecimal digits are read as the number that they were taken from. -/
theorem hexUnit?_hexDigits (small : unit < 16 ^ 4) :
    hexUnit? (hexDigits unit 4 ++ rest) = some (unit, rest) := by
  -- Four digits hold the whole of the unit, since it is below the fourth power of sixteen.
  have digits : ((hexDigits unit 4).all fun c => (digitValue? c).isSome) = true :=
    List.all_eq_true.mpr fun c member => isSome_digitValue?_of_mem_hexDigits member
  have value : valueOfDigits 16 (hexDigits unit 4) = unit := by
    rw [valueOfDigits_hexDigits, Nat.mod_eq_of_lt small]
  have long := length_hexDigits unit 4
  match hexDigits unit 4, long, digits, value with
  | [a, b, c, d], _, digits, value =>
    simp only [List.cons_append, List.nil_append, hexUnit?, digits, if_true, value]

/-- A unit outside the halves of characters is read as a character of its own. -/
theorem escaped?_unit (small : unit < 16 ^ 4) (whole : unit < 0xd800 ∨ 0xdc00 ≤ unit) :
    escaped? ('u' :: (hexDigits unit 4 ++ rest)) = some (Char.ofNat unit, rest) := by
  -- Only a unit from d800 up to dc00 makes the reader look for a second half.
  have notHalf : ¬ (decide (0xd800 ≤ unit) && decide (unit < 0xdc00)) = true := by
    rw [Bool.and_eq_true, decide_eq_true_eq, decide_eq_true_eq]
    omega
  simp only [escaped?, hexUnit?_hexDigits small, Option.bind_eq_bind, Option.bind_some]
  exact if_neg notHalf

/-- Two halves are read as the character that they were taken from. -/
theorem escaped?_halves {high low : Nat} (first : high < 0x400) (second : low < 0x400) :
    escaped? ('u' :: (hexDigits (0xd800 + high) 4 ++ (unitEscape (0xdc00 + low) ++ rest))) =
      some (Char.ofNat (0x10000 + high * 0x400 + low), rest) := by
  -- Each half lies in the range that the reader tests it for, so it takes both together.
  have firstHalf : (decide (0xd800 ≤ 0xd800 + high) && decide (0xd800 + high < 0xdc00)) = true := by
    rw [Bool.and_eq_true, decide_eq_true_eq, decide_eq_true_eq]
    omega
  have secondHalf : (decide (0xdc00 ≤ 0xdc00 + low) && decide (0xdc00 + low < 0xe000)) = true := by
    rw [Bool.and_eq_true, decide_eq_true_eq, decide_eq_true_eq]
    omega
  have stripped : strip? ['\\', 'u'] (unitEscape (0xdc00 + low) ++ rest) =
      some (hexDigits (0xdc00 + low) 4 ++ rest) := rfl
  simp only [escaped?, hexUnit?_hexDigits (show 0xd800 + high < 16 ^ 4 by omega),
    Option.bind_eq_bind, Option.bind_some, firstHalf, if_true, stripped,
    hexUnit?_hexDigits (show 0xdc00 + low < 16 ^ 4 by omega), secondHalf, Nat.add_sub_cancel_left]

end Escapes

section Strings

/-- The code of a character is no half of a character. -/
theorem toNat_cases (c : Char) : c.toNat < 0xd800 ∨ 0xe000 ≤ c.toNat ∧ c.toNat < 0x110000 := by
  have valid := c.valid
  unfold UInt32.isValidChar Nat.isValidChar at valid
  have code : c.toNat = c.val.toNat := rfl
  omega

/-- An escaped character is read as the character, and the rest goes on behind it. -/
theorem stringBody?_escape (c : Char) (fuel : Nat) (rest : List Char) :
    stringBody? (fuel + 1) (escape c ++ rest) =
      (stringBody? fuel rest).map fun (tail, after) => (c :: tail, after) := by
  have own := Char.ofNat_toNat c
  have codes := toNat_cases c
  -- What is behind a backslash is read as the character that was meant.
  have escaped : ∀ text, escaped? (text ++ rest) = some (c, rest) →
      stringBody? (fuel + 1) ('\\' :: text ++ rest) =
        (stringBody? fuel rest).map fun (tail, after) => (c :: tail, after) := by
    intro text read
    simp only [List.cons_append, stringBody?, Char.reduceEq, if_false, if_true, read,
      Option.bind_eq_bind, Option.bind_some]
    cases stringBody? fuel rest <;> rfl
  unfold escape
  split
  · next special =>
    -- The quote and the backslash stand for themselves.
    refine escaped [c] ?_
    rw [Bool.or_eq_true, decide_eq_true_eq, decide_eq_true_eq] at special
    rcases special with rfl | rfl <;> rfl
  split
  · next same => exact escaped ['n'] (by rw [same]; rfl)
  split
  · next same => exact escaped ['r'] (by rw [same]; rfl)
  split
  · next same => exact escaped ['t'] (by rw [same]; rfl)
  split
  · next same => exact escaped ['b'] (by rw [same]; rfl)
  split
  · next same => exact escaped ['f'] (by rw [same]; rfl)
  split
  · next notSpecial _ _ _ _ _ printable =>
    -- Any other printable character is written as it is.
    simp only [Bool.or_eq_true, decide_eq_true_eq, not_or] at notSpecial
    simp only [Bool.and_eq_true, decide_eq_true_eq] at printable
    have shown : ¬ c.toNat < 0x20 := by omega
    simp only [List.singleton_append, stringBody?, notSpecial, if_false, shown]
    cases stringBody? fuel rest <;> rfl
  split
  · next basic =>
    refine escaped ('u' :: hexDigits c.toNat 4) ?_
    rw [List.cons_append, escaped?_unit (by omega) (by omega), own]
  · next outside =>
    -- The two halves together have the code of the character.
    have halves := @escaped?_halves rest ((c.toNat - 0x10000) / 0x400) ((c.toNat - 0x10000) % 0x400)
      (by omega) (by omega)
    have code : 0x10000 + (c.toNat - 0x10000) / 0x400 * 0x400 + (c.toNat - 0x10000) % 0x400 =
        c.toNat := by omega
    rw [code, own, ← List.append_assoc, ← List.cons_append] at halves
    exact escaped _ halves

/-- A text is read back from its escaped characters, up to the quote behind them. -/
theorem stringBody?_text (text : List Char) {fuel : Nat} (enough : text.length < fuel)
    (rest : List Char) :
    stringBody? fuel (text.flatMap escape ++ '\x22' :: rest) = some (text, rest) := by
  -- Every character takes one step.
  induction text generalizing fuel with
  | nil =>
    obtain ⟨steps, rfl⟩ : ∃ steps, fuel = steps + 1 := ⟨fuel - 1, by omega⟩
    rfl
  | cons c text ih =>
    rw [List.length_cons] at enough
    obtain ⟨steps, rfl⟩ : ∃ steps, fuel = steps + 1 := ⟨fuel - 1, by omega⟩
    rw [List.flatMap_cons, List.append_assoc, stringBody?_escape, ih (by omega), Option.map_some]

/-- No text is longer than its escaped characters. -/
theorem length_le_flatMap_escape (text : List Char) :
    text.length ≤ (text.flatMap escape).length := by
  -- By induction on the text: every character is written as one or more.
  induction text with
  | nil => exact Nat.le_refl 0
  | cons c text ih =>
    have some : 0 < (escape c).length := by
      unfold escape
      repeat' split
      all_goals simp [unitEscape]
    rw [List.flatMap_cons, List.length_append, List.length_cons]
    omega

/-- A string is read behind its opening quote, with as many steps as there are characters. -/
theorem stringBody?_string (text : String) (rest : List Char) {behind : List Char}
    (written : (string text).toList ++ rest = '\x22' :: behind) :
    stringBody? behind.length.succ behind = some (text.toList, rest) := by
  -- Behind the quote stand the escaped characters, which are at least as many as the text has.
  have same : behind = text.toList.flatMap escape ++ '\x22' :: rest := by
    simp only [string, String.toList_ofList, List.cons_append, List.append_assoc,
      List.nil_append] at written
    exact (List.cons.inj written).2.symm
  have long := length_le_flatMap_escape text.toList
  rw [same]
  refine stringBody?_text _ ?_ _
  rw [List.length_append]
  omega

end Strings

end TrialScript.Json
