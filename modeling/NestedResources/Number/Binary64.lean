import NestedResources.Number.Numeral

/-!
# Finite double-precision numbers

A double is `± significand · 2 ^ exponent` in its one normal form. Its value is the integer `units`
counted in steps of `2 ^ -1074`, so doubles are compared by comparing integers.
-/
namespace NestedResources

/-- A finite double. A significand below `2 ^ 52` occurs with the least exponent only. -/
structure Binary64 where
  negative : Bool
  significand : Nat
  exponent : Int
  normal : significand < 0x20000000000000 ∧ -1074 ≤ exponent ∧ exponent ≤ 971 ∧
    (0x10000000000000 ≤ significand ∨ exponent = -1074)
deriving DecidableEq

namespace Binary64

/-- Zero with either sign. -/
def zero (negative : Bool) : Binary64 := ⟨negative, 0, -1074, by decide⟩

instance : Inhabited Binary64 := ⟨zero false⟩

/-- The double with these parts, if they are in normal form. -/
def ofParts? (negative : Bool) (significand : Nat) (exponent : Int) : Option Binary64 :=
  if h : significand < 0x20000000000000 ∧ -1074 ≤ exponent ∧ exponent ≤ 971 ∧
      (0x10000000000000 ≤ significand ∨ exponent = -1074)
  then some ⟨negative, significand, exponent, h⟩ else none

/-- The magnitude in steps of `2 ^ -1074`. -/
def magnitude (x : Binary64) : Nat := x.significand * twoTo (x.exponent + 1074).toNat

/-- The value in steps of `2 ^ -1074`. -/
def units (x : Binary64) : Int := if x.negative then -x.magnitude else x.magnitude

/-- The order of the values; the two zeros are equal. -/
def compare (x y : Binary64) : Ordering := Ord.compare x.units y.units

/-- Equality of the values; the two zeros are equal. -/
def equals (x y : Binary64) : Bool := x.units = y.units

/-- The integer a double denotes, if it has no fraction. -/
def toInt? (x : Binary64) : Option Int :=
  if x.units % twoTo 1074 = 0 then some (x.units / twoTo 1074) else none

/-- The quotient rounded to a whole number, a half to the even neighbour. -/
def roundQuotient (num den : Nat) : Nat :=
  let q := num / den
  let r := num % den
  if 2 * r < den then q
  else if den < 2 * r then q + 1
  else if q % 2 = 0 then q else q + 1

/-- The double nearest to `num / den`, a tie going to the even significand; none when that lies
beyond the greatest double. -/
def ofRatio? (negative : Bool) (num den : Nat) : Option Binary64 :=
  if num = 0 then some (zero negative) else
  let scaled (e : Int) : Nat × Nat :=
    if 0 ≤ e then (num, den * twoTo e.toNat) else (num * twoTo (-e).toNat, den)
  let estimate : Int := max (-1074) (Nat.log2 num - Nat.log2 den - 53)
  let (n, d) := scaled estimate
  let e := if 0x20000000000000 ≤ n / d then estimate + 1 else estimate
  let (n, d) := scaled e
  let m := roundQuotient n d
  if m = 0x20000000000000 then ofParts? negative 0x10000000000000 (e + 1) else ofParts? negative m e

/-- The double nearest to an integer. -/
def ofInt? (n : Int) : Option Binary64 := ofRatio? (n < 0) n.natAbs 1

/-- The double nearest to a decimal numeral; none when it lies beyond the greatest double. Far
exponents are decided without computing the power. -/
def ofDecimal? (d : Decimal) : Option Binary64 :=
  if d.digits = 0 then some (zero d.negative) else
  let places : Int := (toString d.digits).length + d.exponent
  if 310 < places then none
  else if places < -330 then some (zero d.negative)
  else if 0 ≤ d.exponent then ofRatio? d.negative (d.digits * tenTo d.exponent.toNat) 1
  else ofRatio? d.negative d.digits (tenTo (-d.exponent).toNat)

end Binary64

end NestedResources
