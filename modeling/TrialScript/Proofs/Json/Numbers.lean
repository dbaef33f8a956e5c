import Mathlib.Data.List.TakeWhile
import TrialScript.Json.Reader
import TrialScript.Json.Writer
import TrialScript.Proofs.Numeric.Shortest
import TrialScript.Proofs.Text.Digits

/-! Numbers in JSON: every number is read back from its text, of the kind and the value that it has. -/

namespace TrialScript.Json

/-- What can stand behind a value: nothing, or what separates or ends the parts around it. -/
def Ends (rest : List Char) : Prop :=
  ∀ c, rest.head? = some c → c = ',' ∨ c = ']' ∨ c = '\x7d'

/-- A text that does not go on with a digit. -/
def Stops (rest : List Char) : Prop :=
  ∀ c, rest.head? = some c → c.isDigit = false

/-- Digits that can stand before a point: a zero alone, or digits that do not begin with one. -/
def IsWhole (whole : List Char) : Prop :=
  whole = ['0'] ∨ ∃ first rest, whole = first :: rest ∧ first ≠ '0' ∧ ∀ c ∈ whole, c.isDigit = true

section Scanning

variable {digits rest : List Char}

/-- No digit ends a value. -/
theorem Ends.stops (ends : Ends rest) : Stops rest := by
  intro c first
  rcases ends c first with rfl | rfl | rfl <;> decide

/-- A character that is no digit stops a run of digits. -/
theorem stops_cons {c : Char} (other : c.isDigit = false) : Stops (c :: rest) := by
  rintro _ ⟨⟩
  exact other

/-- A run of digits is taken as a whole. -/
theorem takeWhile_digits (all : ∀ c ∈ digits, c.isDigit = true) (stops : Stops rest) :
    (digits ++ rest).takeWhile Char.isDigit = digits := by
  -- The run ends where the rest begins, which is with no digit.
  rw [List.takeWhile_append_of_pos all]
  cases rest with
  | nil => simp
  | cons c rest => simp [stops c rfl]

/-- Behind a run of digits comes the rest. -/
theorem dropWhile_digits (all : ∀ c ∈ digits, c.isDigit = true) (stops : Stops rest) :
    (digits ++ rest).dropWhile Char.isDigit = rest := by
  -- The run is dropped as a whole, and no further digit follows.
  rw [List.dropWhile_append_of_pos all]
  cases rest with
  | nil => rfl
  | cons c rest => simp [stops c rfl]

/-- Digits behind a point are a fraction. -/
theorem fraction_point (some : digits ≠ []) (all : ∀ c ∈ digits, c.isDigit = true)
    (stops : Stops rest) : fraction ('.' :: (digits ++ rest)) = (digits, rest) := by
  simp only [fraction, takeWhile_digits all stops, dropWhile_digits all stops]
  rw [if_neg (by simpa using some)]

/-- Without a point there is no fraction. -/
theorem fraction_none (noPoint : rest.head? ≠ some '.') : fraction rest = ([], rest) := by
  -- The split is on the first character, which is no point.
  unfold fraction
  split
  · exact absurd rfl noPoint
  · rfl

/-- A mark, a sign and digits are a power of ten. -/
theorem exponent?_signed {negative : Bool} (some : digits ≠ [])
    (all : ∀ c ∈ digits, c.isDigit = true) (stops : Stops rest) :
    exponent? ('e' :: (if negative then '-' else '+') :: (digits ++ rest)) =
      (.some (if negative then -(valueOfDigits 10 digits : Int) else valueOfDigits 10 digits),
        rest) := by
  have filled : digits.isEmpty = false := by simpa using some
  cases negative <;>
    simp [exponent?, takeWhile_digits all stops, dropWhile_digits all stops, filled]

/-- Without a mark there is no power of ten. -/
theorem exponent?_none (ends : Ends rest) : exponent? rest = (none, rest) := by
  cases rest with
  | nil => rfl
  | cons c rest => rcases ends c rfl with rfl | rfl | rfl <;> rfl

/-- Digits that can stand before a point are taken as a whole, whatever follows them. -/
theorem unsigned?_eq {negative : Bool} {whole after decimals middle : List Char}
    {power : Option Int} (leads : IsWhole whole) (stops : Stops after)
    (decimal : fraction after = (decimals, middle)) (scaled : exponent? middle = (power, rest)) :
    unsigned? negative (whole ++ after) =
      if decimals.isEmpty && power.isNone then
        some (.int (if negative then -(valueOfDigits 10 whole : Int) else valueOfDigits 10 whole),
          rest)
      else some (.float (.ofDecimal negative (valueOfDigits 10 (whole ++ decimals))
        (power.getD 0 - decimals.length)), rest) := by
  -- Before a point stands a single zero or digits that do not begin with one.
  rcases leads with rfl | ⟨first, tail, rfl, notZero, all⟩
  · simp only [unsigned?, List.cons_append, List.nil_append, List.isEmpty_cons, List.length_singleton,
      List.drop_one, List.tail_cons, decimal, scaled, Bool.false_eq_true, if_false]
  · -- The digits are taken because the first one is no zero.
    have taken := takeWhile_digits all stops
    rw [List.cons_append] at taken
    simp [unsigned?, notZero, taken, decimal, scaled]

end Scanning

section Decimals

/-- A text that is read as a decimal of some value, under either sign and before any end. -/
def Spells (text : List Char) (value : ℚ) : Prop :=
  ∃ decimal : Decimal, decimal.value = value ∧ ∀ negative rest, Ends rest →
    unsigned? negative (text ++ rest) =
      some (.float (.ofDecimal negative decimal.digits decimal.exponent), rest)

/-- Digits around a point stand for all of them, as many places below one as there are behind it. -/
theorem spells_point {whole decimals : List Char} (leads : IsWhole whole) (some : decimals ≠ [])
    (all : ∀ c ∈ decimals, c.isDigit = true) :
    Spells (whole ++ '.' :: decimals)
      (valueOfDigits 10 (whole ++ decimals) * 10 ^ (-(decimals.length : Int))) := by
  -- The digits before the point are taken first, then those behind it.
  refine ⟨⟨valueOfDigits 10 (whole ++ decimals), -(decimals.length : Int)⟩, rfl, ?_⟩
  intro negative rest ends
  have filled : decimals.isEmpty = false := by simpa using some
  rw [List.append_assoc, List.cons_append, unsigned?_eq leads (stops_cons (by decide))
    (fraction_point some all ends.stops) (exponent?_none ends)]
  simp [filled]

/-- Zeros are digits. -/
theorem isDigit_of_mem_zeros {count : Nat} {c : Char} (member : c ∈ List.replicate count '0') :
    c.isDigit = true := by
  rw [List.eq_of_mem_replicate member]
  decide

/-- A padded number has digits that denote it. -/
theorem padded_digits (width n : Nat) : (padded width n).toList ≠ [] ∧
    (∀ c ∈ (padded width n).toList, c.isDigit = true) ∧
      valueOfDigits 10 (padded width n).toList = n := by
  -- The text of a padded number is a run of zeros and then its digits.
  have text : (padded width n).toList =
      List.replicate (width - (digitsOf n).length) '0' ++ digitsOf n := by
    simp [padded]
  rw [text]
  refine ⟨by simp [digitsOf_ne_nil], fun c member => ?_, ?_⟩
  · rcases List.mem_append.mp member with zero | digit
    · exact isDigit_of_mem_zeros zero
    · exact isDigit_of_mem_digitsOf digit
  · rw [valueOfDigits_append, valueOfDigits_zeros, valueOfDigits_digitsOf, Nat.zero_mul,
      Nat.zero_add]

/-- One digit, more behind a point, and a power of ten. -/
theorem spells_scientific {first : Char} {tail : List Char} (notZero : first ≠ '0')
    (all : ∀ c ∈ first :: tail, c.isDigit = true) (leading : Int) :
    Spells (Decimal.scientific (first :: tail) leading)
      (valueOfDigits 10 (first :: tail) * 10 ^ (leading - tail.length)) := by
  refine ⟨⟨valueOfDigits 10 (first :: tail), leading - tail.length⟩, rfl, ?_⟩
  intro negative rest ends
  obtain ⟨some, digits, denotes⟩ := padded_digits 2 leading.natAbs
  obtain ⟨isDigit, allTail⟩ := List.forall_mem_cons.mp all
  have leads : IsWhole [first] :=
    .inr ⟨first, [], rfl, notZero, by simpa using isDigit⟩
  -- The power of ten is read with its sign.
  have power := @exponent?_signed _ rest (decide (leading < 0)) some digits ends.stops
  have signed : (if decide (leading < 0) = true then -(leading.natAbs : Int)
      else leading.natAbs) = leading := by
    simp only [decide_eq_true_eq]
    split <;> omega
  rw [denotes, signed] at power
  simp only [decide_eq_true_eq] at power
  have stopped : ∀ rest, Stops ('e' :: rest) := fun rest => stops_cons (by decide)
  -- Without further digits there is no point.
  cases tail with
  | nil =>
    have text : Decimal.scientific [first] leading ++ rest = [first] ++
        'e' :: (if leading < 0 then '-' else '+') :: ((padded 2 leading.natAbs).toList ++ rest) := by
      simp [Decimal.scientific]
    rw [text, unsigned?_eq leads (stopped _) (fraction_none (by simp)) power]
    simp
  | cons second tail =>
    have text : Decimal.scientific (first :: second :: tail) leading ++ rest = [first] ++
        '.' :: (second :: tail ++
          'e' :: (if leading < 0 then '-' else '+') :: ((padded 2 leading.natAbs).toList ++ rest)) := by
      simp [Decimal.scientific]
    have decimal := fraction_point (List.cons_ne_nil second tail) allTail (stopped
      ((if leading < 0 then '-' else '+') :: ((padded 2 leading.natAbs).toList ++ rest)))
    rw [text, unsigned?_eq leads (stops_cons (by decide)) decimal power]
    simp

section Positional

variable {first : Char} {tail : List Char} (notZero : first ≠ '0')
  (all : ∀ c ∈ first :: tail, c.isDigit = true)
include all

/-- Digits of a decimal below one stand behind the point, with zeros before them. -/
theorem spells_below_one {leading : Int} (small : leading < 0) :
    Spells ('0' :: '.' :: (List.replicate ((-leading).toNat - 1) '0' ++ first :: tail))
      (valueOfDigits 10 (first :: tail) * 10 ^ (leading - tail.length)) := by
  generalize zeros : (-leading).toNat - 1 = count
  have digits : ∀ c ∈ List.replicate count '0' ++ first :: tail, c.isDigit = true :=
    List.forall_mem_append.mpr ⟨fun c => isDigit_of_mem_zeros, all⟩
  have spelled := spells_point (.inl rfl : IsWhole ['0']) (by simp) digits
  -- The zeros denote nothing, but they make the places of the other digits smaller.
  have value : valueOfDigits 10 (['0'] ++ (List.replicate count '0' ++ first :: tail)) =
      valueOfDigits 10 (first :: tail) := by
    rw [← List.append_assoc, ← List.replicate_one, ← List.replicate_add, valueOfDigits_append,
      valueOfDigits_zeros, Nat.zero_mul, Nat.zero_add]
  have places : (-((List.replicate count '0' ++ first :: tail).length : Int)) =
      leading - tail.length := by
    simp only [List.length_append, List.length_replicate, List.length_cons]
    omega
  rw [value, places] at spelled
  exact spelled

include notZero

/-- Digits of a whole decimal stand before the point, with zeros up to it. -/
theorem spells_whole {places : Nat} (few : tail.length ≤ places) :
    Spells (first :: tail ++ List.replicate (places + 1 - (first :: tail).length) '0' ++ ['.', '0'])
      (valueOfDigits 10 (first :: tail) * 10 ^ ((places : Int) - tail.length)) := by
  generalize zeros : places + 1 - (first :: tail).length = count
  have leads : IsWhole (first :: tail ++ List.replicate count '0') :=
    .inr ⟨first, _, rfl, notZero, List.forall_mem_append.mpr ⟨all, fun c => isDigit_of_mem_zeros⟩⟩
  have spelled := spells_point leads (List.cons_ne_nil '0' [])
    (fun c member => @isDigit_of_mem_zeros 1 c member)
  -- The zero behind the point counts as one more place.
  have value : valueOfDigits 10 (first :: tail ++ List.replicate count '0' ++ ['0']) =
      valueOfDigits 10 (first :: tail) * 10 ^ (count + 1) := by
    rw [List.append_assoc, ← List.replicate_one, ← List.replicate_add, valueOfDigits_append,
      valueOfDigits_zeros, List.length_replicate, Nat.add_zero]
  have places : (places - tail.length : Int) = (count + 1 : Nat) + -1 := by
    simp only [List.length_cons] at zeros
    omega
  rw [value] at spelled
  rw [places, zpow_add₀ (by norm_num), zpow_natCast, ← mul_assoc]
  push_cast at spelled
  exact spelled

/-- Digits of any other decimal stand on both sides of the point. -/
theorem spells_between {places : Nat} (some : tail.drop places ≠ []) :
    Spells (first :: tail.take places ++ '.' :: tail.drop places)
      (valueOfDigits 10 (first :: tail) * 10 ^ ((places : Int) - tail.length)) := by
  -- Both sides of the point are digits, and together they are all of the digits.
  have leads : IsWhole (first :: tail.take places) := by
    refine .inr ⟨first, _, rfl, notZero, fun c member => all c ?_⟩
    exact List.mem_of_mem_take (i := places + 1) member
  have digits : ∀ c ∈ tail.drop places, c.isDigit = true := fun c member =>
    all c (List.mem_cons_of_mem _ (List.mem_of_mem_drop member))
  have spelled := spells_point leads some digits
  have whole : first :: tail.take places ++ tail.drop places = first :: tail := by
    rw [List.cons_append, List.take_append_drop]
  have count : (-((tail.drop places).length : Int)) = places - tail.length := by
    have more := List.length_pos_iff.mpr some
    rw [List.length_drop] at more ⊢
    omega
  rw [whole, count] at spelled
  exact spelled

/-- Digits around a point, with zeros where there are too few of them. -/
theorem spells_positional (leading : Int) : Spells (Decimal.positional (first :: tail) leading)
    (valueOfDigits 10 (first :: tail) * 10 ^ (leading - tail.length)) := by
  -- The point stands before, behind or between the digits, as the leading place says.
  unfold Decimal.positional
  split
  · next small => exact spells_below_one all small
  · next large =>
    obtain ⟨places, rfl⟩ := Int.eq_ofNat_of_zero_le (Int.not_lt.mp large)
    simp only [Int.toNat_natCast, List.take_succ_cons, List.drop_succ_cons, List.isEmpty_iff]
    by_cases none : tail.drop places = []
    · -- All digits stand before the point.
      have few : tail.length ≤ places := List.drop_eq_nil_iff.mp none
      rw [if_pos none, List.take_of_length_le few]
      have spelled := spells_whole notZero all few
      exact spelled
    · -- Some digits are left for the places behind the point, so no zeros are needed.
      have more : places < tail.length := by
        by_contra few
        exact none (List.drop_eq_nil_iff.mpr (Nat.not_lt.mp few))
      have noZeros : places + 1 - (first :: tail.take places).length = 0 := by
        simp only [List.length_cons, List.length_take]
        omega
      rw [if_neg none, noZeros, List.replicate_zero, List.append_nil]
      exact spells_between notZero all none

end Positional

/-- Only zeros are dropped at the end of digits. -/
theorem exists_zeros_behind (digits : List Char) : ∃ zeros,
    digits = (digits.reverse.dropWhile (· == '0')).reverse ++ List.replicate zeros '0' := by
  -- Reversed digits begin with what is dropped, which is zeros only.
  have whole := List.takeWhile_append_dropWhile (p := (· == '0')) (l := digits.reverse)
  have dropped : ∀ c ∈ digits.reverse.takeWhile (· == '0'), c = '0' := by
    intro c member
    have isZero := List.mem_takeWhile_imp (p := (· == '0')) member
    exact beq_iff_eq.mp isZero
  rw [List.eq_replicate_of_mem dropped] at whole
  have reversed := congrArg List.reverse whole
  rw [List.reverse_append, List.reverse_replicate, List.reverse_reverse] at reversed
  exact ⟨_, reversed.symm⟩

/-- The digits of a decimal without the zeros at their end, and the place of the first of them. -/
theorem significant_eq {decimal : Decimal} (some : 0 < decimal.digits) :
    ∃ first tail leading, decimal.significant = (first :: tail, leading) ∧ first ≠ '0' ∧
      (∀ c ∈ first :: tail, c.isDigit = true) ∧
        decimal.value = valueOfDigits 10 (first :: tail) * 10 ^ (leading - tail.length) := by
  -- The digits that are kept stand before the zeros that are dropped.
  obtain ⟨zeros, parts⟩ := exists_zeros_behind (digitsOf decimal.digits)
  generalize isKept : ((digitsOf decimal.digits).reverse.dropWhile (· == '0')).reverse = kept at parts
  have digits : ∀ c ∈ kept, c.isDigit = true := fun c member =>
    isDigit_of_mem_digitsOf (parts ▸ List.mem_append_left _ member)
  obtain ⟨first, rest, begins, notZero⟩ := head_digitsOf some
  cases kept with
  | nil =>
    -- The first digit is no zero, so it is not dropped.
    rw [parts, List.nil_append] at begins
    have member : first ∈ List.replicate zeros '0' := begins ▸ List.mem_cons_self
    exact absurd (List.eq_of_mem_replicate member) notZero
  | cons first' tail =>
    obtain rfl : first' = first := by
      rw [parts, List.cons_append] at begins
      exact (List.cons.inj begins).1
    refine ⟨first', tail, _, by rw [Decimal.significant, isKept], notZero, digits, ?_⟩
    -- The dropped zeros are a power of ten, which the exponent counts.
    have denoted := valueOfDigits_digitsOf decimal.digits
    rw [parts, valueOfDigits_append, valueOfDigits_zeros, List.length_replicate, Nat.add_zero]
      at denoted
    have places : decimal.exponent + (digitsOf decimal.digits).length - 1 - tail.length =
        zeros + decimal.exponent := by
      simp only [parts, List.length_append, List.length_cons, List.length_replicate]
      omega
    rw [places, Decimal.value, ← denoted, zpow_add₀ (by norm_num), zpow_natCast]
    push_cast
    ring

/-- The text of a positive decimal is read as a decimal of its value. -/
theorem spells_layout {decimal : Decimal} (some : 0 < decimal.digits) :
    Spells decimal.layout.toList decimal.value := by
  -- The digits are laid out in positions, or with an exponent if there would be too many.
  obtain ⟨first, tail, leading, kept, notZero, all, value⟩ := significant_eq some
  have text : decimal.layout.toList = if -4 ≤ leading ∧ leading < 16 then
      Decimal.positional (first :: tail) leading else Decimal.scientific (first :: tail) leading := by
    simp [Decimal.layout, kept]
  rw [text, value]
  split
  · exact spells_positional notZero all leading
  · exact spells_scientific notZero all leading

end Decimals

section Numbers

variable {rest : List Char}

/-- An integer is read from its digits. -/
theorem unsigned?_integer (negative : Bool) (n : Nat) (ends : Ends rest) :
    unsigned? negative (digitsOf n ++ rest) =
      some (.int (if negative then -(n : Int) else n), rest) := by
  -- The digits of an integer begin with no zero unless it is zero, and no point follows.
  have leads : IsWhole (digitsOf n) := by
    rcases Nat.eq_zero_or_pos n with rfl | some
    · exact .inl (by decide)
    · obtain ⟨first, tail, digits, notZero⟩ := head_digitsOf some
      exact .inr ⟨first, tail, digits, notZero, fun c => isDigit_of_mem_digitsOf⟩
  have noPoint : rest.head? ≠ some '.' := by
    intro point
    rcases ends _ point with same | same | same <;> cases same
  rw [unsigned?_eq leads ends.stops (fraction_none noPoint) (exponent?_none ends),
    valueOfDigits_digitsOf]
  rfl

/-- A binary64 number is read from its text without the sign. -/
theorem unsigned?_finite (negative : Bool) {significand exponent : Nat}
    (canonical : Binary64.Canonical significand exponent) (ends : Ends rest) :
    unsigned? negative ((if significand = 0 then "0.0"
      else (Decimal.shortest significand exponent).layout).toList ++ rest) =
        some (.float (.finite negative significand exponent canonical), rest) := by
  split
  · next zero =>
    -- Zero has the exponent zero only.
    subst zero
    obtain rfl : exponent = 0 := by
      have filled := canonical.2.2
      omega
    have leads : IsWhole ['0'] := .inl rfl
    have decimal : fraction ('.' :: (['0'] ++ rest)) = (['0'], rest) :=
      fraction_point (List.cons_ne_nil '0' []) (by simp) ends.stops
    exact unsigned?_eq leads (stops_cons (by decide)) decimal (exponent?_none ends)
  · next other =>
    have some : 0 < significand := Nat.pos_of_ne_zero other
    have digits := Decimal.digits_pos some (Decimal.rounds_shortest canonical some)
    obtain ⟨decimal, same, read⟩ := spells_layout digits
    rw [read negative rest ends, Decimal.ofDecimal_of_value_eq canonical some same]

/-- A number that is read begins with a digit. -/
theorem isDigit_of_unsigned? {negative : Bool} {text : List Char} {read : Number × List Char}
    (reads : unsigned? negative text = some read) :
    ∃ first tail, text = first :: tail ∧ first.isDigit = true := by
  -- Without a digit at the front there would be nothing to read.
  cases text with
  | nil => cases reads
  | cons first tail =>
    refine ⟨first, tail, rfl, ?_⟩
    by_contra other
    have notZero : first ≠ '0' := by
      rintro rfl
      exact other rfl
    simp [unsigned?, notZero, other] at reads

/-- A number is read behind its sign. -/
theorem number?_signed {negative : Bool} {text : List Char} {read : Number × List Char}
    (reads : unsigned? negative text = some read) :
    number? ((if negative then ['-'] else []) ++ text) = some read := by
  obtain ⟨first, tail, rfl, digit⟩ := isDigit_of_unsigned? reads
  cases negative with
  | true =>
    -- No word begins with a digit.
    have noWord : strip? "Infinity".toList (first :: tail) = none := by
      refine if_neg ?_
      rintro rfl
      cases digit
    simp only [if_true, List.cons_append, List.nil_append, number?, noWord]
    exact reads
  | false =>
    have noSign : first ≠ '-' := by
      rintro rfl
      cases digit
    simp [number?, noSign, reads]

/-- No word begins with a digit or a sign. -/
theorem word?_none {first : Char} {tail : List Char} (begins : first.isDigit = true ∨ first = '-') :
    word? (first :: tail) = none := by
  have other : first ≠ 'n' ∧ first ≠ 't' ∧ first ≠ 'f' ∧ first ≠ 'N' ∧ first ≠ 'I' := by
    refine ⟨?_, ?_, ?_, ?_, ?_⟩ <;> rintro rfl <;> revert begins <;> decide
  simp [word?, words, strip?, other]

/-- A number is read as a value, as it begins with a digit or a sign. -/
theorem value?_signed {negative : Bool} {text : List Char} {number : Number} {rest : List Char}
    (reads : unsigned? negative text = some (number, rest)) (fuel : Nat) :
    value? (fuel + 1) ((if negative then ['-'] else []) ++ text) = some (.num number, rest) := by
  -- What begins with a digit or a sign is no text, list, mapping or word.
  have read := number?_signed reads
  obtain ⟨first, tail, begins, digitOrSign⟩ : ∃ first tail,
      (if negative then ['-'] else []) ++ text = first :: tail ∧
        (first.isDigit = true ∨ first = '-') := by
    obtain ⟨first, tail, rfl, digit⟩ := isDigit_of_unsigned? reads
    cases negative with
    | true => exact ⟨'-', _, rfl, .inr rfl⟩
    | false => exact ⟨first, tail, rfl, .inl digit⟩
  rw [begins] at read ⊢
  have other : first ≠ '\x22' ∧ first ≠ '[' ∧ first ≠ '\x7b' := by
    refine ⟨?_, ?_, ?_⟩ <;> rintro rfl <;> revert digitOrSign <;> decide
  simp [value?, other, word?_none digitOrSign, read]

/-- Every number is read back from its text. -/
theorem value?_number (value : Number) (ends : Ends rest) (fuel : Nat) :
    value? (fuel + 1) ((number value).toList ++ rest) = some (.num value, rest) := by
  -- Each kind of number is written in its own way, with the sign in front.
  cases value with
  | int n =>
    have read := value?_signed (unsigned?_integer (decide (n < 0)) n.natAbs ends) fuel
    have text : (number (.int n)).toList =
        (if decide (n < 0) = true then ['-'] else []) ++ digitsOf n.natAbs := by
      simp only [number, integerText, decide_eq_true_eq]
      split <;> simp
    have signed : (if decide (n < 0) = true then -(n.natAbs : Int) else n.natAbs) = n := by
      simp only [decide_eq_true_eq]
      split <;> omega
    rw [text, List.append_assoc, read, signed]
  | float x =>
    cases x with
    | nan => rfl
    | infinite negative => cases negative <;> rfl
    -- A finite number is written as its sign and the shortest decimal near it.
    | finite negative significand exponent canonical =>
      have read := value?_signed (unsigned?_finite negative canonical ends) fuel
      have text : (number (.float (.finite negative significand exponent canonical))).toList =
          (if negative then ['-'] else []) ++ (if significand = 0 then "0.0"
            else (Decimal.shortest significand exponent).layout).toList := by
        simp only [number, Binary64.text, String.toList_append]
        cases negative <;> rfl
      rw [text, List.append_assoc, read]

end Numbers

end TrialScript.Json
