import NestedResources.Schema.Basic

/-!
# Plans

A plan is a list of commands that are committed together. Entities that the plan itself creates are
referred to by slots, counted from zero in the order of their creation.
-/
namespace NestedResources

/-- An entity of a plan. -/
inductive EntityRef where
  /-- The entity that the creation with this slot makes. -/
  | pending (slot : Nat)
  | existing (identity : Identity)

instance : Inhabited EntityRef := ⟨.pending 0⟩

def EntityRef.existing? : EntityRef → Option Identity
  | existing identity => some identity
  | pending _ => none

/-- A change to the members of a relationship of `parent`, an entity of `resource`. -/
structure LinkChange where
  resource : String
  relationship : String
  parent : EntityRef
  child : EntityRef

/-- One step of a plan. Values are keyed by columns. -/
inductive Command where
  | create (slot : Nat) (resource : String) (values : Record)
  | update (resource : String) (target : EntityRef) (values : Record)
  | delete (resource : String) (target : EntityRef)
  | link (change : LinkChange)
  | unlink (change : LinkChange)

structure Plan where
  commands : List Command := []

namespace Plan

def empty : Plan := {}

instance : Inhabited Plan := ⟨empty⟩

def isEmpty (p : Plan) : Bool := p.commands.isEmpty

/-- One more than the greatest slot of a creation. -/
def pending (p : Plan) : Nat :=
  p.commands.foldl (fun n c => match c with
    | .create slot _ _ => max n (slot + 1)
    | _ => n) 0

def push (p : Plan) (c : Command) : Plan := ⟨p.commands ++ [c]⟩

/-- Appends a creation, with the reference to what it makes. -/
def create (p : Plan) (resource : String) (values : Record) : Plan × EntityRef :=
  (p.push (.create p.pending resource values), .pending p.pending)

end Plan

/-- What a commit did: the identity for each slot, and the number of rows and links changed. -/
structure Report where
  created : List Identity := []
  writes : Nat := 0

/-- The identity that a reference stands for after the commit. -/
def Report.resolve? (r : Report) : EntityRef → Option Identity
  | .existing identity => some identity
  | .pending slot => r.created[slot]?

namespace EntityRef

def toJson : EntityRef → Json
  | pending slot => .obj [("pending", .nat slot)]
  | existing identity => .obj [("existing", identity.toJson)]

end EntityRef

def LinkChange.toJson (c : LinkChange) : Json :=
  .object [("resource", .str c.resource), ("relationship", .str c.relationship),
    ("parent", c.parent.toJson), ("child", c.child.toJson)]

def Command.toJson : Command → Json
  | create slot resource values => .obj [("create",
      .object [("slot", .nat slot), ("resource", .str resource), ("values", .ofDict values)])]
  | update resource target values => .obj [("update",
      .object [("resource", .str resource), ("target", target.toJson), ("values", .ofDict values)])]
  | delete resource target =>
    .obj [("delete", .object [("resource", .str resource), ("target", target.toJson)])]
  | link change => .obj [("link", change.toJson)]
  | unlink change => .obj [("unlink", change.toJson)]

def Plan.toJson (p : Plan) : Json := .obj [("commands", .arr (p.commands.map Command.toJson))]

end NestedResources
