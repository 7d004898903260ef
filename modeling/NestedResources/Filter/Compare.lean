import NestedResources.Filter.Basic
import NestedResources.Filter.Like
import NestedResources.Schema.FieldType

/-!
# Comparing values

`compareValues` orders two scalars of one kind and `Operator.holds` applies an operator. Null is
special: `eq` and `ne` against null test presence, every other comparison with null is false.
-/
namespace NestedResources

def compareBool : Bool → Bool → Ordering
  | false, true => .lt
  | true, false => .gt
  | _, _ => .eq

/-- The order of two values of one kind. Under the type `dateTime` two texts that both name instants
are in chronological order. -/
def compareValues (type : FieldType) (left right : Json) : Option Ordering :=
  match left, right with
  | .num m, .num n => m.compare n
  | .bool a, .bool b => some (compareBool a b)
  | .str s, .str t =>
    match (if type = .dateTime then Timestamp.ofText? s else none),
      (if type = .dateTime then Timestamp.ofText? t else none) with
    | some a, some b => some (a.compare b)
    | _, _ => some (compare s t)
  | _, _ => none

/-- Whether two values compare equal. -/
def comparesEqual (type : FieldType) (left right : Json) : Bool :=
  compareValues type left right = some .eq

/-- Whether `stored operator expected` holds; a missing value counts as null. -/
def Operator.holds (operator : Operator) (type : FieldType) (stored : Option Json) (expected : Json) :
    Bool :=
  let stored := stored.getD .null
  if expected.isNull then
    match operator with
    | .eq => stored.isNull
    | .ne => !stored.isNull
    | _ => false
  else if stored.isNull then false
  else
    let order := compareValues type stored expected
    match operator with
    | .eq => order = some .eq
    | .ne => order ≠ some .eq
    | .gt => order = some .gt
    | .gte => order = some .gt || order = some .eq
    | .lt => order = some .lt
    | .lte => order = some .lt || order = some .eq
    | .like => match stored, expected with
      | .str text, .str pattern => NestedResources.like pattern text
      | _, _ => false

end NestedResources
