import PodFirewall.Text.Blank
import PodFirewall.Text.Decimal

/-!
Points in time, with their RFC 3339 text.
Reading is lenient about blanks and about the number of digits of a field;
writing has one form, in UTC, with the fewest groups of three fraction digits
that are exact.
-/

namespace PodFirewall

structure Timestamp where
  /-- Whole seconds since the beginning of 1970 in UTC. -/
  seconds : Int
  /-- Nanoseconds on top. A leap second is told by a value of at least a
  thousand million, on the second before it. -/
  nanos : Nat
  deriving DecidableEq

namespace Timestamp

open Std

instance : Ord Timestamp where
  compare := compareLex (compareOn seconds) (compareOn nanos)

instance : TransOrd Timestamp :=
  inferInstanceAs (TransCmp (compareLex (compareOn seconds) (compareOn nanos)))

instance : LawfulEqOrd Timestamp where
  compare_self {_} := ReflOrd.compare_self
  eq_of_compare {a b} h := by
    have h' : (compare a.seconds b.seconds).then (compare a.nanos b.nanos) = .eq := h
    obtain ⟨h1, h2⟩ := Ordering.then_eq_eq.1 h'
    have e1 := LawfulEqCmp.eq_of_compare h1
    have e2 := LawfulEqCmp.eq_of_compare h2
    cases a; cases b; cases e1; cases e2; rfl

/-! ### Days of the calendar -/

def isLeapYear (year : Int) : Bool :=
  year % 4 == 0 && (year % 100 != 0 || year % 400 == 0)

def daysInMonth (year : Int) (month : Nat) : Nat :=
  if month = 2 then (if isLeapYear year then 29 else 28)
  else if month = 4 ∨ month = 6 ∨ month = 9 ∨ month = 11 then 30
  else 31

/-- The number of days from the beginning of 1970 to a day. Years are counted
from March here, so that the leap day is the last of its year. -/
def daysFromCivil (year : Int) (month day : Nat) : Int :=
  let y := if month ≤ 2 then year - 1 else year
  let shifted := (month + 9) % 12
  let dayOfYear := (153 * shifted + 2) / 5 + day - 1
  y * 365 + y / 4 - y / 100 + y / 400 + dayOfYear - 719468

def civilFromDays (days : Int) : Int × Nat × Nat :=
  let z := days + 719468
  -- the calendar repeats itself every 400 years
  let era := z / 146097
  let dayOfEra := (z % 146097).toNat
  let yearOfEra :=
    (dayOfEra - dayOfEra / 1460 + dayOfEra / 36524 - dayOfEra / 146096) / 365
  let dayOfYear := dayOfEra - (365 * yearOfEra + yearOfEra / 4 - yearOfEra / 100)
  let shifted := (5 * dayOfYear + 2) / 153
  let day := dayOfYear - (153 * shifted + 2) / 5 + 1
  let month := if shifted < 10 then shifted + 3 else shifted - 9
  let year : Int := yearOfEra + era * 400
  (if month ≤ 2 then year + 1 else year, month, day)

/-! ### Reading -/

/-- At most `most` digits at the front, at least one, as a number. -/
def readDigits (most : Nat) (cs : List Char) : Option (Nat × List Char) :=
  let ds := (cs.takeWhile (·.isDigit)).take most
  if ds.isEmpty then none else some (Decimal.value ds, cs.drop ds.length)

/-- A field of one or two digits, after blanks. -/
def readField (cs : List Char) : Option (Nat × List Char) :=
  readDigits 2 (Text.skipBlanks cs)

/-- A year: up to four digits, or any number of them behind a sign. -/
def readYear (cs : List Char) : Option (Int × List Char) :=
  match Text.skipBlanks cs with
  | '-' :: rest => (readDigits rest.length rest).map fun r => (-(r.1 : Int), r.2)
  | '+' :: rest => (readDigits rest.length rest).map fun r => ((r.1 : Int), r.2)
  | rest => (readDigits 4 rest).map fun r => ((r.1 : Int), r.2)

def readMark (mark : Char) (cs : List Char) : Option (List Char) :=
  match Text.skipBlanks cs with
  | c :: rest => if c = mark then some rest else none
  | [] => none

/-- The nanoseconds of a fraction, if there is a point; digits behind the
ninth do not count. -/
def readFraction : List Char → Option (Nat × List Char)
  | '.' :: rest =>
    let ds := rest.takeWhile (·.isDigit)
    if ds.isEmpty then none
    else
      let used := ds.take 9
      some (Decimal.value (used ++ List.replicate (9 - used.length) '0'), rest.drop ds.length)
  | rest => some (0, rest)

/-- Hours and minutes of an offset from UTC, in seconds. Colons and blanks
may stand between the two. -/
def readOffsetTime : List Char → Option (Nat × List Char)
  | a :: b :: rest =>
    if a.isDigit && b.isDigit then
      match rest.dropWhile fun c => c == ':' || Text.isBlank c with
      | c :: d :: rest =>
        if c.isDigit && d.isDigit && Decimal.value [c, d] < 60 &&
            Decimal.value [a, b] < 24 then
          some (Decimal.value [a, b] * 3600 + Decimal.value [c, d] * 60, rest)
        else none
      | _ => none
    else none
  | _ => none

def readOffset (cs : List Char) : Option (Int × List Char) :=
  match Text.skipBlanks cs with
  | 'Z' :: rest => some (0, rest)
  | 'z' :: rest => some (0, rest)
  | '+' :: rest => (readOffsetTime rest).map fun r => ((r.1 : Int), r.2)
  | '-' :: rest => (readOffsetTime rest).map fun r => (-(r.1 : Int), r.2)
  | '\u2212' :: rest => (readOffsetTime rest).map fun r => (-(r.1 : Int), r.2)
  | a :: b :: c :: rest =>
    if [a, b, c].map Char.toUpper = ['U', 'T', 'C'] then some (0, rest) else none
  | _ => none

def readSeparator : List Char → Option (List Char)
  | c :: rest => if c = 'T' ∨ c = 't' ∨ c = ' ' then some rest else none
  | [] => none

def firstYear : Int := -262143

def lastYear : Int := 262142

/-- Whether a number of seconds since the beginning of 1970 lies in the years of
the calendar, in UTC. -/
def inCalendar (seconds : Int) : Bool :=
  daysFromCivil firstYear 1 1 * 86400 ≤ seconds &&
    seconds < daysFromCivil (lastYear + 1) 1 1 * 86400

/-- The point in time of a calendar day and a time of day at an offset from
UTC, if there is such a day and time. The second 60 is a leap second. The year
has to be one of the calendar both at the offset and in UTC. -/
def ofCivil? (year : Int) (month day hour minute second nanos : Nat) (offset : Int) :
    Option Timestamp :=
  if firstYear ≤ year ∧ year ≤ lastYear ∧ 1 ≤ month ∧ month ≤ 12 ∧ 1 ≤ day ∧
      day ≤ daysInMonth year month ∧ hour < 24 ∧ minute < 60 ∧ second ≤ 60 then
    let whole := if second = 60 then 59 else second
    let seconds := daysFromCivil year month day * 86400 +
      (hour * 3600 + minute * 60 + whole : Nat) - offset
    if inCalendar seconds then
      some ⟨seconds, if second = 60 then nanos + 1000000000 else nanos⟩
    else none
  else none

def parse? (s : String) : Option Timestamp := do
  let (year, cs) ← readYear s.toList
  let cs ← readMark '-' cs
  let (month, cs) ← readField cs
  let cs ← readMark '-' cs
  let (day, cs) ← readField cs
  let cs ← readSeparator cs
  let (hour, cs) ← readField cs
  let cs ← readMark ':' cs
  let (minute, cs) ← readField cs
  let cs ← readMark ':' cs
  let (second, cs) ← readField cs
  let (nanos, cs) ← readFraction cs
  let (offset, cs) ← readOffset cs
  if (Text.skipBlanks cs).isEmpty then ofCivil? year month day hour minute second nanos offset
  else none

/-! ### Writing -/

def padded (width n : Nat) : String :=
  let ds := Decimal.digits n
  String.ofList (List.replicate (width - ds.length) '0' ++ ds)

/-- A year: four digits, or a sign and at least four digits outside of 0 to
9999. -/
def yearText (year : Int) : String :=
  if 0 ≤ year ∧ year ≤ 9999 then padded 4 year.toNat
  else (if year < 0 then "-" else "+") ++ padded 4 year.natAbs

/-- The fraction of a second, in the fewest groups of three digits. -/
def fractionText (nanos : Nat) : String :=
  if nanos = 0 then ""
  else if nanos % 1000000 = 0 then "." ++ padded 3 (nanos / 1000000)
  else if nanos % 1000 = 0 then "." ++ padded 6 (nanos / 1000)
  else "." ++ padded 9 nanos

def text (t : Timestamp) : String :=
  let (year, month, day) := civilFromDays (t.seconds / 86400)
  let time := (t.seconds % 86400).toNat
  let second := time % 60 + t.nanos / 1000000000
  yearText year ++ "-" ++ padded 2 month ++ "-" ++ padded 2 day ++ "T" ++
    padded 2 (time / 3600) ++ ":" ++ padded 2 (time / 60 % 60) ++ ":" ++
    padded 2 second ++ fractionText (t.nanos % 1000000000) ++ "Z"

end Timestamp

end PodFirewall
