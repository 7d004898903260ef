import NestedResources.Schema.Schema

/-!
# Paths

A dotted path crosses relationships and ends in a field. Only fields that may be queried are
reachable by a path.
-/
namespace NestedResources

/-- The crossing of a relationship from the resource it belongs to. -/
structure Hop where
  resource : Resource
  relationship : Relationship
deriving DecidableEq

/-- A field with the relationships crossed on the way to it. -/
structure FieldPath where
  hops : List Hop
  /-- The resource of the field. -/
  resource : Resource
  field : Field
deriving DecidableEq

namespace Schema

/-- The crossings that a chain of relationship names makes, and where it ends. Errors name the path
`display`. -/
def cross (s : Schema) (display : String) (start : Resource) :
    List String → Except Error (List Hop × Resource)
  | [] => .ok ([], start)
  | segment :: rest =>
    match start.relationship? segment with
    | none =>
      .error (.invalidField display
        (if (start.field? segment).isSome then .notTraversable segment
          else .unknownRelationship segment start.name))
    | some rel => do
      let target ← s.require rel.target
      let (hops, last) ← s.cross display target rest
      .ok (⟨start, rel⟩ :: hops, last)

/-- The field that a dotted path leads to. -/
def fieldPath (s : Schema) (start : Resource) (path : String) : Except Error FieldPath := do
  let segments := Text.fields '.' path
  let last := segments.getLastD ""
  let (hops, resource) ← s.cross path start segments.dropLast
  match resource.field? last with
  | none =>
    throw (.invalidField path
      (if (resource.relationship? last).isSome then .isRelationship last
        else .unknownField last resource.name))
  | some field =>
    if field.writeOnly then throw (.invalidField path (.writeOnly last))
    else if !field.queryable then throw (.invalidField path (.notQueryable last))
    else pure ⟨hops, resource, field⟩

end Schema

end NestedResources
