import NestedResources.Pattern.CharSet

/-!
# Patterns

Regular expressions over places of a text. A pattern takes a set of places to the places from which
it can reach one of them, so searching takes time in proportion to pattern and text, and a star needs
no more rounds than there are places (`Pattern.reach`).
-/
namespace NestedResources

/-- A place of a text: between characters, or at an end. -/
structure Place where
  before : Option Char
  after : Option Char
deriving DecidableEq

/-- A condition on a place. -/
inductive Anchor where
  | textStart
  | textEnd
  | lineStart
  | lineEnd
  /-- As `lineStart`, where `\r\n` and `\r` end a line too. -/
  | lineStartAny
  | lineEndAny
  | wordBoundary
  | noWordBoundary
  | wordStart
  | wordEnd
  | wordStartHalf
  | wordEndHalf
deriving DecidableEq

def Anchor.holds (a : Anchor) (p : Place) : Bool :=
  let inWord (c : Option Char) := c.any Text.isWordChar
  match a with
  | textStart => p.before.isNone
  | textEnd => p.after.isNone
  | lineStart => p.before.isNone || p.before = some '\n'
  | lineEnd => p.after.isNone || p.after = some '\n'
  | lineStartAny =>
    p.before.isNone || p.before = some '\n' || (p.before = some '\r' && p.after ≠ some '\n')
  | lineEndAny =>
    p.after.isNone || p.after = some '\r' || (p.after = some '\n' && p.before ≠ some '\r')
  | wordBoundary => inWord p.before != inWord p.after
  | noWordBoundary => inWord p.before == inWord p.after
  | wordStart => !inWord p.before && inWord p.after
  | wordEnd => inWord p.before && !inWord p.after
  | wordStartHalf => !inWord p.before
  | wordEndHalf => !inWord p.after

inductive Pattern where
  | empty
  | one (set : CharSet)
  | anchor (a : Anchor)
  | seq (first second : Pattern)
  | alt (left right : Pattern)
  /-- At least `least` copies, and at most `most` if that is given. -/
  | repeated (least : Nat) (most : Option Nat) (p : Pattern)

namespace Pattern

instance : Inhabited Pattern := ⟨empty⟩

/-- A set of places of a text: one flag for each place, from the first to the last. -/
abbrev Places := List Bool

/-- The places of a text, given the character before it. -/
def placesOf (before : Option Char) : List Char → List Place
  | [] => [⟨before, none⟩]
  | c :: cs => ⟨before, some c⟩ :: placesOf (some c) cs

/-- The places right before a character of the set that ends at a flagged place. -/
def stepOne (set : CharSet) : List Place → Places → Places
  | p :: ps, _ :: flags => (p.after.any set.contains && flags.headD false) :: stepOne set ps flags
  | _, _ => []

def both (a b : Places) : Places := List.zipWith (· || ·) a b

/-- Applies a step `n` times. -/
def times (step : Places → Places) : Nat → Places → Places
  | 0, flags => flags
  | n + 1, flags => times step n (step flags)

/-- The places from which at most `n` steps reach a flagged place. -/
def upTo (step : Places → Places) : Nat → Places → Places
  | 0, flags => flags
  | n + 1, flags => both flags (step (upTo step n flags))

/-- The places from which a pattern can reach a flagged place. -/
def reach (places : List Place) : Pattern → Places → Places
  | empty, flags => flags
  | one set, flags => stepOne set places flags
  | anchor a, flags => List.zipWith (fun p flag => a.holds p && flag) places flags
  | seq first second, flags => reach places first (reach places second flags)
  | alt left right, flags => both (reach places left flags) (reach places right flags)
  | repeated least most p, flags =>
    let more := match most with
      | some m => min (m - least) places.length
      | none => places.length
    times (reach places p) least (upTo (reach places p) more flags)

/-- Whether a pattern matches somewhere in a text. -/
def occursIn (p : Pattern) (text : String) : Bool :=
  let places := placesOf none text.toList
  (reach places p (places.map fun _ => true)).any id

end Pattern

end NestedResources
