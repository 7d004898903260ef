import NestedResources.Number.Binary64

/-!
# Shortest decimal texts of doubles

The digits are the fewest that read back as the same double, and of those the nearest to it. Where
they are written positionally and where with an exponent is a `Layout`.
-/
namespace NestedResources

/-- The number `digits · 10 ^ exponent`. -/
structure Digits where
  digits : Nat
  exponent : Int
deriving DecidableEq

namespace Binary64

/-- The magnitude as a quotient of whole numbers. -/
def ratio (x : Binary64) : Nat × Nat :=
  (x.significand * twoTo x.exponent.toNat, twoTo (-x.exponent).toNat)

/-- Whether `c · 10 ^ k` reads back as the magnitude of `x`: it lies between the midpoints to the
neighbouring doubles, and on a midpoint only if the significand is even. -/
def readsBack (x : Binary64) (c : Nat) (k : Int) : Bool :=
  let (num, den) := x.ratio
  let unit := twoTo x.exponent.toNat
  let below := if x.significand = 0x10000000000000 ∧ -1074 < x.exponent then unit else 2 * unit
  let point := 4 * c * tenTo k.toNat * den
  let scale := tenTo (-k).toNat
  let low := (4 * num - below) * scale
  let high := (4 * num + 2 * unit) * scale
  if x.significand % 2 = 0 then low ≤ point && point ≤ high else low < point && point < high

/-- The exponent of the leading decimal digit of a non-zero magnitude. -/
def leadingExponent (x : Binary64) : Int :=
  let (num, den) := x.ratio
  (toString (num * tenTo 400 / den)).length - 401

/-- The nearer of the two neighbours of the magnitude on the grid of multiples of `10 ^ k` that read
back; a tie goes to the even one. -/
def onGrid? (x : Binary64) (k : Int) : Option Nat :=
  let (num, den) := x.ratio
  let n := num * tenTo (-k).toNat
  let d := den * tenTo k.toNat
  let c := n / d
  match x.readsBack c k, x.readsBack (c + 1) k with
  | true, true => some (roundQuotient n d)
  | true, false => some c
  | false, true => some (c + 1)
  | false, false => none

/-- Moves trailing zeros from the digits into the exponent. -/
def stripZeros : Nat → Nat → Int → Digits
  | 0, c, k => ⟨c, k⟩
  | fuel + 1, c, k => if c ≠ 0 ∧ c % 10 = 0 then stripZeros fuel (c / 10) (k + 1) else ⟨c, k⟩

/-- Tries grids of `count` more and more digits. -/
def searchDigits (x : Binary64) (lead : Int) : Nat → Nat → Digits
  | 0, _ => ⟨0, 0⟩
  | fuel + 1, count =>
    let k := lead - count
    match x.onGrid? k with
    | some c => stripZeros 20 c k
    | none => searchDigits x lead fuel (count + 1)

/-- The fewest digits that read back as the magnitude. Seventeen always do. -/
def shortest (x : Binary64) : Digits :=
  if x.significand = 0 then ⟨0, 0⟩ else searchDigits x x.leadingExponent 18 0

/-- How digits are laid out as text. -/
structure Layout where
  /-- Exponents of the leading digit that are written positionally. -/
  positional : Int → Bool
  /-- Whether a whole number keeps `.0`. -/
  keepsFraction : Bool

/-- Doubles in documents are positional from `10 ^ -5` to below `10 ^ 16` and keep their fraction. -/
def Layout.document : Layout := ⟨fun e => -5 ≤ e && e < 16, true⟩

/-- Bounds in messages are always positional, and whole numbers have no fraction. -/
def Layout.plain : Layout := ⟨fun _ => true, false⟩

def zeros (n : Nat) : String := String.ofList (List.replicate n '0')

end Binary64

/-- The text of digits under a layout. -/
def Digits.text (layout : Binary64.Layout) (d : Digits) : String :=
  let text := toString d.digits
  let lead : Int := d.exponent + text.length - 1
  if layout.positional lead then
    if 0 ≤ d.exponent then
      text ++ Binary64.zeros d.exponent.toNat ++ (if layout.keepsFraction then ".0" else "")
    else if 0 ≤ lead then
      let whole := (lead + 1).toNat
      String.ofList (text.toList.take whole) ++ "." ++ String.ofList (text.toList.drop whole)
    else "0." ++ Binary64.zeros (-lead - 1).toNat ++ text
  else
    let places := String.ofList (text.toList.drop 1)
    String.ofList (text.toList.take 1) ++ (if places = "" then "" else "." ++ places) ++ "e"
      ++ (if lead < 0 then "-" else "+") ++ toString lead.natAbs

/-- The text of a double under a layout. -/
def Binary64.render (layout : Layout) (x : Binary64) : String :=
  let body := x.shortest.text layout
  if x.negative then "-" ++ body else body

end NestedResources
