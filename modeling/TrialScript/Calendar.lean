import TrialScript.Text.Digits

/-! Calendar days and moments, with or without a zone, and their texts. -/

namespace TrialScript

/-- A calendar day. -/
structure Date where
  year : Nat
  month : Nat
  day : Nat
deriving DecidableEq

/--
A calendar day with a time of day.

A moment with a zone knows by how many microseconds its clock is ahead of world time. A
zone with a name, or with summer time, counts only for how far it is ahead at that moment.
-/
structure DateTime where
  date : Date
  hour : Nat
  minute : Nat
  second : Nat
  microsecond : Nat
  zone : Option Int
deriving DecidableEq

namespace Date

/-- The parts from the coarsest to the finest. -/
def parts (d : Date) : List Nat :=
  [d.year, d.month, d.day]

/-- Days are ordered by their parts from the coarsest. -/
def before (left right : Date) : Bool :=
  decide (left.parts < right.parts)

/-- Whether a year has a leap day. -/
def isLeap (year : Nat) : Bool :=
  year % 4 == 0 && (year % 100 != 0 || year % 400 == 0)

/-- The lengths of the months of a year. -/
def monthLengths (year : Nat) : List Nat :=
  [31, if isLeap year then 29 else 28, 31, 30, 31, 30, 31, 31, 30, 31, 30, 31]

/-- The number of days before a year, counted from the first day of the first year. -/
def daysBeforeYear (year : Nat) : Nat :=
  let past := year - 1
  365 * past + past / 4 - past / 100 + past / 400

/-- The number of days before a day, counted from the first day of the first year. -/
def daysBefore (d : Date) : Nat :=
  ((monthLengths d.year).take (d.month - 1)).foldl (· + ·) (daysBeforeYear d.year) + (d.day - 1)

/-- The month and the day that some days into a year fall on, given the months from one on. -/
def monthAndDay (month days : Nat) : List Nat → Nat × Nat
  | [] => (month, days + 1)
  | length :: rest =>
    if days < length then (month, days + 1) else monthAndDay (month + 1) (days - length) rest

/-- The day with a given number of days before it. -/
def ofDaysBefore (days : Nat) : Date :=
  let cycle := days % 146097
  -- The last century of a cycle and the last year of four are a day longer than the others.
  let centuries := min 3 (cycle / 36524)
  let century := cycle - 36524 * centuries
  let fours := century / 1461
  let years := min 3 (century % 1461 / 365)
  let year := 400 * (days / 146097) + 100 * centuries + 4 * fours + years + 1
  let (month, day) := monthAndDay 1 (century % 1461 - 365 * years) (monthLengths year)
  ⟨year, month, day⟩

/-- Year, month and day with hyphens. -/
def text (d : Date) : String :=
  padded 4 d.year ++ "-" ++ padded 2 d.month ++ "-" ++ padded 2 d.day

/-- The parts of a written constructor call. -/
def display (d : Date) : String :=
  "datetime.date(" ++ ", ".intercalate (d.parts.map fun (n : Nat) => integerText n) ++ ")"

end Date

namespace DateTime

/-- The parts from the coarsest to the finest. -/
def parts (d : DateTime) : List Nat :=
  d.date.parts ++ [d.hour, d.minute, d.second, d.microsecond]

/-- The number of microseconds in a day. -/
def dayLength : Nat := 86400000000

/-- The number of microseconds before a moment, counted from the start of the first year. -/
def microsecondsBefore (d : DateTime) : Nat :=
  dayLength * d.date.daysBefore +
    1000000 * (3600 * d.hour + 60 * d.minute + d.second) + d.microsecond

/-- The number of microseconds up to the end of the last year that is written with four digits. -/
def lastCount : Nat :=
  dayLength * Date.daysBeforeYear 10000

/-- The moment with a given number of microseconds before it, by the clock of a zone. -/
def ofMicrosecondsBefore (zone : Option Int) (count : Nat) : DateTime :=
  let seconds := count % dayLength / 1000000
  ⟨.ofDaysBefore (count / dayLength), seconds / 3600, seconds / 60 % 60, seconds % 60,
    count % 1000000, zone⟩

/-- The number of microseconds before a moment by world time, if its zone is known. -/
def worldTime? (d : DateTime) : Option Int :=
  d.zone.map fun ahead => d.microsecondsBefore - ahead

/-- Whether two moments are the same; one with a zone is never the same as one without. -/
def same (left right : DateTime) : Bool :=
  match left.worldTime?, right.worldTime? with
  | some x, some y => x == y
  | none, none => left == right
  | _, _ => false

/-- Whether one moment is before another; one with a zone has no order with one without. -/
def before? (left right : DateTime) : Option Bool :=
  match left.worldTime?, right.worldTime? with
  | some x, some y => some (decide (x < y))
  | none, none => some (decide (left.parts < right.parts))
  | _, _ => none

/-- The microseconds from one moment to another, if both or neither of them have a zone. -/
def until? (low high : DateTime) : Option Int :=
  match low.worldTime?, high.worldTime? with
  | some x, some y => some (y - x)
  | none, none => some (high.microsecondsBefore - low.microsecondsBefore)
  | _, _ => none

/-- How far a clock is ahead, with seconds and microseconds only where there are any. -/
def zoneText (ahead : Int) : String :=
  let seconds := ahead.natAbs / 1000000
  (if ahead < 0 then "-" else "+") ++ padded 2 (seconds / 3600) ++ ":" ++
    padded 2 (seconds / 60 % 60) ++
    (if ahead.natAbs % 60000000 = 0 then "" else ":" ++ padded 2 (seconds % 60)) ++
    (if ahead.natAbs % 1000000 = 0 then "" else "." ++ padded 6 (ahead.natAbs % 1000000))

/-- The day and the time around a separator, with microseconds only where there are any. -/
def text (separator : String) (d : DateTime) : String :=
  d.date.text ++ separator ++ padded 2 d.hour ++ ":" ++ padded 2 d.minute ++ ":" ++
    padded 2 d.second ++ (if d.microsecond = 0 then "" else "." ++ padded 6 d.microsecond) ++
    (d.zone.map zoneText).getD ""

/-- A zone as a written constructor call, where parts that are zero are left out. -/
def displayZone (ahead : Int) : String :=
  let part (name : String) (count : Int) : List String :=
    if count = 0 then [] else [name ++ "=" ++ integerText count]
  -- Days take the sign, so the seconds and microseconds behind them are never negative.
  let parts := part "days" (ahead / dayLength) ++
    part "seconds" (ahead % dayLength / 1000000) ++ part "microseconds" (ahead % 1000000)
  if ahead = 0 then "datetime.timezone.utc"
  else "datetime.timezone(datetime.timedelta(" ++ ", ".intercalate parts ++ "))"

/-- The parts of a written constructor call, where trailing zero seconds are left out. -/
def display (d : DateTime) : String :=
  -- Minutes are always shown, and finer parts as far as the last that is not zero.
  let kept :=
    if d.microsecond ≠ 0 then d.parts
    else if d.second ≠ 0 then d.parts.take 6
    else d.parts.take 5
  let zone := (d.zone.map fun ahead => "tzinfo=" ++ displayZone ahead).toList
  "datetime.datetime(" ++
    ", ".intercalate ((kept.map fun (n : Nat) => integerText n) ++ zone) ++ ")"

end DateTime

/-- The number that a run of decimal digits denotes, if it is one. -/
def readDigits? (text : List Char) : Option Nat :=
  if text.isEmpty || !text.all Char.isDigit then none
  else some (valueOfDigits 10 text)

/-- Reads a day written with hyphens. -/
def Date.read? (text : List Char) : Option Date := do
  let year ← readDigits? (text.take 4)
  let month ← readDigits? ((text.drop 5).take 2)
  let day ← readDigits? ((text.drop 8).take 2)
  if text.length = 10 then some ⟨year, month, day⟩ else none

/-- Reads an hour and a minute, and seconds and microseconds unless they are left out. -/
def readClock? (text : List Char) : Option (Nat × Nat × Nat × Nat) := do
  let hour ← readDigits? (text.take 2)
  let minute ← readDigits? ((text.drop 3).take 2)
  let second ← if text.length ≤ 5 then some 0 else readDigits? ((text.drop 6).take 2)
  let microsecond ← if text.length ≤ 8 then some 0 else readDigits? (text.drop 9)
  some (hour, minute, second, microsecond)

/-- Reads how far a clock is ahead; no text at all stands for no zone. -/
def readZone? : List Char → Option (Option Int)
  | [] => some none
  | sign :: text => do
    let (hour, minute, second, microsecond) ← readClock? text
    let ahead : Nat := 1000000 * (3600 * hour + 60 * minute + second) + microsecond
    some (some (if sign = '-' then -ahead else ahead))

/-- Reads a day and a time of day, and the zone behind a sign if there is one. -/
def DateTime.read? (text : List Char) : Option DateTime := do
  let date ← Date.read? (text.take 10)
  let clock := (text.drop 11).takeWhile fun c => c ≠ '+' && c ≠ '-'
  let (hour, minute, second, microsecond) ← readClock? clock
  let zone ← readZone? (text.drop (11 + clock.length))
  some ⟨date, hour, minute, second, microsecond, zone⟩

end TrialScript
