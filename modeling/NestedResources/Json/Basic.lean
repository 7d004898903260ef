import NestedResources.Dict
import NestedResources.Number.Shortest

/-!
# JSON values

Integers and doubles are different values even when they denote the same number. The members of an
object are meant to be in ascending key order, as the reader leaves them.
-/
namespace NestedResources

/-- A JSON number: an integer, or a double written with a fraction or an exponent. -/
inductive Number where
  | int (value : Int)
  | float (value : Binary64)
deriving DecidableEq

inductive Json where
  | null
  | bool (value : Bool)
  | num (value : Number)
  | str (value : String)
  | arr (items : List Json)
  | obj (members : List (String × Json))

namespace Number

/-- The value as a signed 64-bit integer. -/
def toInt64? : Number → Option Int
  | .int n => if -0x8000000000000000 ≤ n ∧ n < 0x8000000000000000 then some n else none
  | .float _ => none

/-- The nearest double; none for an integer beyond the doubles. -/
def toBinary64? : Number → Option Binary64
  | .int n => Binary64.ofInt? n
  | .float x => some x

/-- Equality of number values of one representation. -/
def same : Number → Number → Bool
  | .int m, .int n => m = n
  | .float x, .float y => x.equals y
  | _, _ => false

/-- Two 64-bit integers compare exactly, every other pair as doubles. -/
def compare (m n : Number) : Option Ordering :=
  match m.toInt64?, n.toInt64? with
  | some a, some b => some (Ord.compare a b)
  | _, _ => match m.toBinary64?, n.toBinary64? with
    | some x, some y => some (x.compare y)
    | _, _ => none

end Number

namespace Json

instance : Inhabited Json := ⟨null⟩

def int (n : Int) : Json := num (.int n)

def nat (n : Nat) : Json := num (.int n)

def isNull : Json → Bool
  | null => true
  | _ => false

def isArray : Json → Bool
  | arr _ => true
  | _ => false

def isObject : Json → Bool
  | obj _ => true
  | _ => false

def isString : Json → Bool
  | str _ => true
  | _ => false

/-- Neither array nor object. -/
def isScalar : Json → Bool
  | arr _ => false
  | obj _ => false
  | _ => true

def string? : Json → Option String
  | str s => some s
  | _ => none

def bool? : Json → Option Bool
  | bool b => some b
  | _ => none

def array? : Json → Option (List Json)
  | arr items => some items
  | _ => none

def object? : Json → Option (List (String × Json))
  | obj members => some members
  | _ => none

def int64? : Json → Option Int
  | num n => n.toInt64?
  | _ => none

/-- A member of an object; none for other values. -/
def get? (key : String) : Json → Option Json
  | obj members => Entries.get? key members
  | _ => none

/-- A member of an object, null when there is none. -/
def getD (key : String) (j : Json) : Json := (j.get? key).getD null

/-- An object from pairs in any order; the last value of a repeated key stays. -/
def object (pairs : List (String × Json)) : Json := obj (Entries.ofList pairs)

def ofDict (d : Dict Json) : Json := obj d.entries

def strings (texts : List String) : Json := arr (texts.map str)

def ofOption {α : Type} (f : α → Json) : Option α → Json
  | none => null
  | some a => f a

mutual

/-- Equality of documents: the two zeros of doubles are one number. -/
def same : Json → Json → Bool
  | null, null => true
  | bool a, bool b => a == b
  | num m, num n => m.same n
  | str s, str t => s == t
  | arr xs, arr ys => sameItems xs ys
  | obj xs, obj ys => sameMembers xs ys
  | _, _ => false

def sameItems : List Json → List Json → Bool
  | [], [] => true
  | x :: xs, y :: ys => same x y && sameItems xs ys
  | _, _ => false

def sameMembers : List (String × Json) → List (String × Json) → Bool
  | [], [] => true
  | (k, x) :: xs, (l, y) :: ys => k == l && same x y && sameMembers xs ys
  | _, _ => false

end

end Json

/-- Columns of a stored row by storage name. -/
abbrev Record := Dict Json

/-- Equality of rows as documents. -/
def Record.same (r s : Record) : Bool := Json.sameMembers r.entries s.entries

/-- A column that is present and not null. -/
def Record.value? (r : Record) (column : String) : Option Json :=
  match r.get? column with
  | some .null => none
  | v => v

end NestedResources
