import NestedResources.Json.Basic

/-!
# Sort orders

A sort list is written `name,-title`: ascending `name`, then descending `title`.
-/
namespace NestedResources

inductive SortOrder where
  | asc
  | desc
deriving DecidableEq

def SortOrder.name : SortOrder → String
  | asc => "asc"
  | desc => "desc"

def SortOrder.ofName? (s : String) : Option SortOrder :=
  if s = "asc" then some asc else if s = "desc" then some desc else none

/-- Reverses an ordering for a descending sort. -/
def SortOrder.apply : SortOrder → Ordering → Ordering
  | asc, o => o
  | desc, o => o.swap

/-- A field by its API name, with an order. -/
structure SortKey where
  field : String
  order : SortOrder
deriving DecidableEq

namespace SortKey

/-- One item of a sort list; a plus sign may stand before an ascending field. -/
def ofItem (item : String) : SortKey :=
  match Text.dropStart? "-" item with
  | some field => ⟨Text.trim field, .desc⟩
  | none => ⟨(Text.dropStart? "+" item).getD item, .asc⟩

def parseList (raw : String) : List SortKey := (Text.commaList raw).map ofItem

def toJson (s : SortKey) : Json := .object [("field", .str s.field), ("order", .str s.order.name)]

end SortKey

end NestedResources
