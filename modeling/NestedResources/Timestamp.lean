import NestedResources.Text.Basic
import NestedResources.Number.Numeral

/-!
# Timestamps

Instants in UTC, read from RFC 3339 text or from a bare date (midnight), and written as RFC 3339
text with the offset `Z`. A leap second is the nanoseconds from `10 ^ 9` on of the second before it.
-/
namespace NestedResources

/-- An instant: the day counted from 1970-01-01, and the time within it. -/
structure Timestamp where
  day : Int
  second : Nat
  nano : Nat
deriving DecidableEq

/-- A day of the proleptic Gregorian calendar. -/
structure CivilDate where
  year : Int
  month : Nat
  day : Nat
deriving DecidableEq

namespace CivilDate

def isLeapYear (year : Int) : Bool := year % 4 = 0 && (year % 100 != 0 || year % 400 = 0)

def daysInMonth (year : Int) (month : Nat) : Nat :=
  if month = 2 then if isLeapYear year then 29 else 28
  else if month = 4 ∨ month = 6 ∨ month = 9 ∨ month = 11 then 30
  else 31

/-- The years of representable dates. -/
def leastYear : Int := -262143
def greatestYear : Int := 262142

def isValid (d : CivilDate) : Bool :=
  leastYear ≤ d.year && d.year ≤ greatestYear && 1 ≤ d.month && d.month ≤ 12
    && 1 ≤ d.day && d.day ≤ daysInMonth d.year d.month

/-- Days since 1970-01-01. Years are counted from March, so the leap day ends a year. -/
def toDay (d : CivilDate) : Int :=
  let year := if d.month ≤ 2 then d.year - 1 else d.year
  let era := year / 400
  let yearOfEra := year - era * 400
  let month : Int := (d.month + 9) % 12
  let dayOfYear := (153 * month + 2) / 5 + d.day - 1
  let dayOfEra := yearOfEra * 365 + yearOfEra / 4 - yearOfEra / 100 + dayOfYear
  era * 146097 + dayOfEra - 719468

/-- The date of a day counted from 1970-01-01. -/
def ofDay (day : Int) : CivilDate :=
  let z := day + 719468
  let era := z / 146097
  let dayOfEra := z - era * 146097
  let yearOfEra := (dayOfEra - dayOfEra / 1460 + dayOfEra / 36524 - dayOfEra / 146096) / 365
  let dayOfYear := dayOfEra - (365 * yearOfEra + yearOfEra / 4 - yearOfEra / 100)
  let month := (5 * dayOfYear + 2) / 153
  let dayOfMonth := dayOfYear - (153 * month + 2) / 5 + 1
  let civil := if month < 10 then month + 3 else month - 9
  ⟨yearOfEra + era * 400 + (if civil ≤ 2 then 1 else 0), civil.toNat, dayOfMonth.toNat⟩

end CivilDate

namespace Timestamp

/-- Chronological order. -/
def compare (a b : Timestamp) : Ordering :=
  (Ord.compare a.day b.day).then ((Ord.compare a.second b.second).then (Ord.compare a.nano b.nano))

/-- Splits off exactly `count` digits. -/
def fixedDigits? (count : Nat) (cs : List Char) : Option (Nat × List Char) :=
  if (cs.take count).length = count then
    (Numeral.digits? (cs.take count)).map fun n => (n, cs.drop count)
  else none

def literal? (c : Char) : List Char → Option (List Char)
  | d :: cs => if d = c then some cs else none
  | [] => none

/-- Splits off a fraction of a second, in nanoseconds. Digits after the ninth are dropped. -/
def fraction? : List Char → Option (Nat × List Char)
  | '.' :: cs =>
    let digits := cs.takeWhile Char.isDigit
    let kept := digits.take 9
    (Numeral.digits? kept).map fun n => (n * tenTo (9 - kept.length), cs.drop digits.length)
  | cs => some (0, cs)

/-- The minutes of an offset: `Z`, or a sign, two digits, a colon and two digits. -/
def offset? : List Char → Option Int
  | ['Z'] => some 0
  | ['z'] => some 0
  | c :: cs => do
    let negative ← if c = '+' then some false else if c = '-' ∨ c = '−' then some true else none
    let (hours, cs) ← fixedDigits? 2 cs
    let cs ← literal? ':' cs
    let (minutes, cs) ← fixedDigits? 2 cs
    if cs = [] ∧ minutes < 60 ∧ hours < 24 then
      let total : Int := hours * 60 + minutes
      some (if negative then -total else total)
    else none
  | [] => none

/-- RFC 3339 text. The date and the time are separated by `T` or a blank. -/
def ofRfc3339? (cs : List Char) : Option Timestamp := do
  let (year, cs) ← fixedDigits? 4 cs
  let cs ← literal? '-' cs
  let (month, cs) ← fixedDigits? 2 cs
  let cs ← literal? '-' cs
  let (day, cs) ← fixedDigits? 2 cs
  let date : CivilDate := ⟨year, month, day⟩
  let cs ← match cs with
    | c :: cs => if c = 'T' ∨ c = 't' ∨ c = ' ' then some cs else none
    | [] => none
  let (hour, cs) ← fixedDigits? 2 cs
  let cs ← literal? ':' cs
  let (minute, cs) ← fixedDigits? 2 cs
  let cs ← literal? ':' cs
  let (second, cs) ← fixedDigits? 2 cs
  let (nano, cs) ← fraction? cs
  let offset ← offset? cs
  if date.isValid ∧ hour < 24 ∧ minute < 60 ∧ second ≤ 60 then
    let (second, nano) := if second = 60 then (59, nano + 1000000000) else (second, nano)
    let total : Int := (hour * 3600 + minute * 60 + second : Nat) - offset * 60
    some ⟨date.toDay + total / 86400, (total % 86400).toNat, nano⟩
  else none

/-- Splits off a numeral of at most `width` digits, after blanks. -/
def padded? (width : Nat) (cs : List Char) : Option (Nat × List Char) :=
  let cs := cs.dropWhile Text.isBlank
  let digits := (cs.takeWhile Char.isDigit).take width
  (Numeral.digits? digits).map fun n => (n, cs.drop digits.length)

/-- Splits off a year: four digits at most, or a sign and any number of digits. -/
def signedYear? (cs : List Char) : Option (Int × List Char) :=
  match cs.dropWhile Text.isBlank with
  | '-' :: rest =>
    let digits := rest.takeWhile Char.isDigit
    (Numeral.digits? digits).map fun n => (-(n : Int), rest.drop digits.length)
  | '+' :: rest =>
    let digits := rest.takeWhile Char.isDigit
    (Numeral.digits? digits).map fun n => ((n : Int), rest.drop digits.length)
  | rest => (padded? 4 rest).map fun (n, rest) => ((n : Int), rest)

/-- A bare date: its midnight. -/
def ofDate? (cs : List Char) : Option Timestamp := do
  let (year, cs) ← signedYear? cs
  let cs ← literal? '-' cs
  let (month, cs) ← padded? 2 cs
  let cs ← literal? '-' cs
  let (day, cs) ← padded? 2 cs
  let date : CivilDate := ⟨year, month, day⟩
  if cs = [] ∧ date.isValid then some ⟨date.toDay, 0, 0⟩ else none

/-- The instant a text names, blanks around it apart. -/
def ofText? (s : String) : Option Timestamp :=
  let cs := Text.trimChars s.toList
  (ofRfc3339? cs).or (ofDate? cs)

def padLeft (width : Nat) (n : Nat) : String :=
  let digits := toString n
  String.ofList (List.replicate (width - digits.length) '0') ++ digits

/-- Four digits; outside 0 to 9999 a sign comes before them. -/
def yearText (year : Int) : String :=
  if 0 ≤ year ∧ year ≤ 9999 then padLeft 4 year.toNat
  else (if year < 0 then "-" else "+") ++ padLeft 4 year.natAbs

/-- No fraction, or its milliseconds, microseconds or nanoseconds, the shortest exact one. -/
def fractionText (nano : Nat) : String :=
  if nano = 0 then ""
  else if nano % 1000000 = 0 then "." ++ padLeft 3 (nano / 1000000)
  else if nano % 1000 = 0 then "." ++ padLeft 6 (nano / 1000)
  else "." ++ padLeft 9 nano

/-- RFC 3339 text in UTC. -/
def text (t : Timestamp) : String :=
  let date := CivilDate.ofDay t.day
  let (leap, nano) := if 1000000000 ≤ t.nano then (1, t.nano - 1000000000) else (0, t.nano)
  yearText date.year ++ "-" ++ padLeft 2 date.month ++ "-" ++ padLeft 2 date.day ++ "T"
    ++ padLeft 2 (t.second / 3600) ++ ":" ++ padLeft 2 (t.second / 60 % 60) ++ ":"
    ++ padLeft 2 (t.second % 60 + leap) ++ fractionText nano ++ "Z"

end Timestamp

end NestedResources
