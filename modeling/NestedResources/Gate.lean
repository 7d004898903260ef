import NestedResources.Filter.Basic
import NestedResources.Schema.Schema

/-!
# Gates

A gate decides what may be done to a resource: which methods, which rows are visible at all, and
which changes. A registry is a schema with its gates; a resource without a gate allows everything.
-/
namespace NestedResources

/-- The entity that a nested document hangs off, and the relationship that leads to it. -/
structure ChangeParent where
  resource : Resource
  relationship : Relationship
  /-- None while the parent is created in the same request. -/
  existing : Option Record

/-- One field write, relationship change, or creation or deletion of an entity. -/
structure Change where
  resource : Resource
  subject : Subject
  action : Action
  /-- The new scalar, or the document of an entity or a member. -/
  value : Option Json
  /-- The stored entity; none for a new one. -/
  existing : Option Record
  parent : Option ChangeParent

structure Gate where
  allows : Resource → Method → Context → Bool := fun _ _ _ => true
  /-- A filter that every row has to pass, at any depth of a query. -/
  required : Resource → Context → Option Filter := fun _ _ => none
  permits : Change → Context → Bool := fun _ _ => true

namespace Gate

def allowAll : Gate := {}

instance : Inhabited Gate := ⟨allowAll⟩

/-- Nothing but reading. -/
def readOnly : Gate where
  allows := fun _ m _ => m = .get || m = .options
  permits := fun _ _ => false

end Gate

/-- The gate that a change is put to. -/
inductive GateRef where
  | default
  | resource (name : String)
  | relationship (resource name : String)
deriving DecidableEq

/-- A schema with gates. Of two gates at one place the later counts. -/
structure Registry where
  schema : Schema
  gates : List (String × Gate)
  relationshipGates : List ((String × String) × Gate)

/-- The last value of a key. -/
def lastOf? {κ α : Type} [DecidableEq κ] (key : κ) (pairs : List (κ × α)) : Option α :=
  (pairs.reverse.find? (·.1 = key)).map (·.2)

namespace Registry

/-- Checks the resources, then that every relationship with a gate exists. -/
def build (resources : List Resource) (gates : List (String × Gate))
    (relationshipGates : List ((String × String) × Gate)) : Except Error Registry := do
  let schema ← Schema.ofList resources
  let known (e : (String × String) × Gate) : Bool :=
    ((schema.resource? e.1.1).bind (·.relationship? e.1.2)).isSome
  match relationshipGates.find? (!known ·) with
  | some ((resource, relationship), _) =>
    throw (.invalidSchema resource (.gateWithoutRelationship relationship))
  | none => pure { schema, gates, relationshipGates }

/-- The gate of a resource. -/
def gateWithRef (r : Registry) (resource : String) : GateRef × Gate :=
  match lastOf? resource r.gates with
  | some gate => (.resource resource, gate)
  | none => (.default, .allowAll)

def gate (r : Registry) (resource : String) : Gate := (r.gateWithRef resource).2

/-- The gate of a relationship, or else that of its resource. -/
def relationshipGateWithRef (r : Registry) (resource relationship : String) : GateRef × Gate :=
  match lastOf? (resource, relationship) r.relationshipGates with
  | some gate => (.relationship resource relationship, gate)
  | none => r.gateWithRef resource

end Registry

end NestedResources
