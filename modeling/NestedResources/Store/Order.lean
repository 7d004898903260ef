import NestedResources.Query.Sort
import NestedResources.Store.Tables

/-!
# Order of rows

Rows are ordered by the columns asked for and then by identity, nulls first. Values that do not
compare are in the order of their JSON texts. Sorting is stable.
-/
namespace NestedResources

/-- A column with an order. -/
structure ColumnSort where
  column : String
  type : FieldType
  order : SortOrder
deriving DecidableEq

/-- The order of two column values of one type. -/
def compareColumns (type : FieldType) : Option Json → Option Json → Ordering
  | none, none => .eq
  | none, some _ => .lt
  | some _, none => .gt
  | some left, some right =>
    (compareValues type left right).getD (compare left.compact right.compact)

namespace Record

def compareBy (left right : Record) (column : String) (type : FieldType) : Ordering :=
  compareColumns type (left.value? column) (right.value? column)

/-- The order of two rows under sorts; ties go by the identity columns. -/
def compare (r : Resource) (sorts : List ColumnSort) (left right : Record) : Ordering :=
  (sorts.map fun s => s.order.apply (left.compareBy right s.column s.type)).foldr Ordering.then
    ((r.identityFields.map fun (f : Field) => left.compareBy right f.column f.type).foldr
      Ordering.then .eq)

end Record

namespace Sorting

variable {α : Type}

/-- Puts an item into a list in descending order, behind every item it does not precede. -/
def insertDescending (cmp : α → α → Ordering) (a : α) : List α → List α
  | [] => [a]
  | b :: bs => if cmp a b = .lt then b :: insertDescending cmp a bs else a :: b :: bs

/-- Stable sort: each item in turn moves before the greater ones at the end of what is sorted. -/
def sort (cmp : α → α → Ordering) (items : List α) : List α :=
  (items.foldl (fun sorted a => insertDescending cmp a sorted) []).reverse

end Sorting

namespace ColumnSort

def toJson (s : ColumnSort) : Json :=
  .object [("key", .str s.column), ("type", .str s.type.name), ("order", .str s.order.name)]

def ofJson? (j : Json) : Option ColumnSort := do
  let column ← (← j.get? "key").string?
  let type ← FieldType.ofName? (← (← j.get? "type").string?)
  let order ← SortOrder.ofName? (← (← j.get? "order").string?)
  some ⟨column, type, order⟩

end ColumnSort

end NestedResources
