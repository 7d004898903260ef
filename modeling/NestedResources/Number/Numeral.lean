import NestedResources.Number.Power
import NestedResources.Text.Basic

/-!
# Numerals

Whole numerals of 64 bits, and decimal numerals `± digits · 10 ^ exponent` before any rounding.
-/
namespace NestedResources

/-- The value of a decimal digit. -/
def digitValue? (c : Char) : Option Nat :=
  if '0' ≤ c ∧ c ≤ '9' then some (c.toNat - '0'.toNat) else none

namespace Numeral

/-- The number that a run of digits spells, on top of the digits read so far. -/
def accumulate (acc : Nat) : List Char → Option Nat
  | [] => some acc
  | c :: cs => match digitValue? c with
    | some d => accumulate (acc * 10 + d) cs
    | none => none

/-- A non-empty run of decimal digits. -/
def digits? : List Char → Option Nat
  | [] => none
  | cs => accumulate 0 cs

/-- Splits off a sign; the flag says whether it was a minus. -/
def sign : List Char → Bool × List Char
  | '+' :: cs => (false, cs)
  | '-' :: cs => (true, cs)
  | cs => (false, cs)

/-- Digits below `2 ^ 64`, after an optional plus sign. -/
def unsigned64? (s : String) : Option UInt64 :=
  let cs := match s.toList with
    | '+' :: cs => cs
    | cs => cs
  (digits? cs).bind fun n => if n < 0x10000000000000000 then some n.toUInt64 else none

/-- Digits with an optional sign, from `-2 ^ 63` to `2 ^ 63 - 1`. -/
def signed64? (s : String) : Option Int :=
  let (negative, cs) := sign s.toList
  (digits? cs).bind fun n =>
    let value : Int := if negative then -n else n
    if -0x8000000000000000 ≤ value ∧ value < 0x8000000000000000 then some value else none

end Numeral

/-- The number `± digits · 10 ^ exponent`. -/
structure Decimal where
  negative : Bool
  digits : Nat
  exponent : Int
deriving DecidableEq

namespace Decimal

/-- An exponent mark with its digits, or nothing. -/
def exponent? : List Char → Option Int
  | [] => some 0
  | c :: cs =>
    if c = 'e' ∨ c = 'E' then
      let (negative, rest) := Numeral.sign cs
      (Numeral.digits? rest).map fun n => if negative then -(n : Int) else n
    else none

/-- Digits with at most one point among them, then an optional exponent. At least one digit is
required, on either side of the point. -/
def ofUnsigned? (negative : Bool) (cs : List Char) : Option Decimal :=
  let isDigit := fun c => (digitValue? c).isSome
  let whole := cs.takeWhile isDigit
  let rest := cs.dropWhile isDigit
  let (places, rest) := match rest with
    | '.' :: more => (more.takeWhile isDigit, more.dropWhile isDigit)
    | rest => ([], rest)
  match Numeral.digits? (whole ++ places), exponent? rest with
  | some n, some e => some ⟨negative, n, e - places.length⟩
  | _, _ => none

end Decimal

/-- What a numeral in free text denotes. -/
inductive RealNumeral where
  | finite (value : Decimal)
  | infinite (negative : Bool)
  | notANumber

/-- A signed decimal numeral, or a spelling of infinity or not-a-number in any case. -/
def RealNumeral.ofText? (s : String) : Option RealNumeral :=
  let (negative, cs) := Numeral.sign s.toList
  match String.ofList (cs.map Char.toLower) with
  | "inf" => some (.infinite negative)
  | "infinity" => some (.infinite negative)
  | "nan" => some .notANumber
  | _ => (Decimal.ofUnsigned? negative cs).map .finite

end NestedResources
