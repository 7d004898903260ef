import NestedResources.Query.Embeds

/-!
# Queries

What a read asks for, in the names of the API.
-/
namespace NestedResources

structure Query where
  filter : Option Filter := none
  /-- The fields to render; none stands for all. -/
  fields : List String := []
  embeds : Embeds := {}
  sorts : List SortKey := []
  window : Window := .unbounded

namespace Query

def empty : Query := {}

instance : Inhabited Query := ⟨empty⟩

def toJson (q : Query) : Json :=
  .object [("filter", .ofOption Filter.toJson q.filter), ("fields", .strings q.fields),
    ("embeds", q.embeds.toJson), ("sorts", .arr (q.sorts.map SortKey.toJson)),
    ("pagination", q.window.toJson)]

end Query

end NestedResources
