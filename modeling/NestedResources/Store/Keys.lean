/-!
# Key layout of a shared store

Every resource and every association table is one hash; a namespace keeps installations apart.
-/
namespace NestedResources

structure KeySpace where
  name : String
deriving DecidableEq

namespace KeySpace

/-- The hash of a resource: identity key to row. -/
def resource (k : KeySpace) (resource : String) : String := k.name ++ ":res:" ++ resource

/-- The hash of an association table: row to `1`. -/
def association (k : KeySpace) (table : String) : String := k.name ++ ":assoc:" ++ table

/-- The counter of commits. -/
def version (k : KeySpace) : String := k.name ++ ":version"

/-- The pattern that every key of the namespace matches. -/
def pattern (k : KeySpace) : String := k.name ++ ":*"

end KeySpace

end NestedResources
