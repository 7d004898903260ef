import NestedResources.Gate

/-!
# Gates described by rules

A rule gate refuses some methods, hides the rows that fail a filter, and refuses every change that
one of its rules matches. The filter is a document in which texts such as `@user` stand for values
of the request context.
-/
namespace NestedResources

/-- What a change looks like. What a rule leaves open matches anything. -/
structure ChangeRule where
  subject : Option Subject := none
  action : Option Action := none
  /-- Whether the change is about a stored entity. -/
  existing : Option Bool := none
  /-- Whether the change is nested in another entity. -/
  nested : Option Bool := none
deriving DecidableEq

namespace ChangeRule

/-- Whether a value is as wanted, if anything is wanted. -/
def agrees {α : Type} [DecidableEq α] (wanted : Option α) (value : α) : Bool :=
  match wanted with
  | none => true
  | some w => w = value

def covers (rule : ChangeRule) (change : Change) : Bool :=
  agrees rule.subject change.subject && agrees rule.action change.action
    && agrees rule.existing change.existing.isSome && agrees rule.nested change.parent.isSome

end ChangeRule

namespace Context

/-- What a text stands for: after `@`, a value of the context, null if there is none. -/
def substitute (ctx : Context) (s : String) : Json :=
  match Text.dropStart? "@" s with
  | some name => (ctx.get? name).getD .null
  | none => .str s

mutual

/-- A document with its texts substituted. -/
def fill (ctx : Context) : Json → Json
  | .str s => ctx.substitute s
  | .arr items => .arr (fillItems ctx items)
  | .obj members => .obj (fillMembers ctx members)
  | j => j

def fillItems (ctx : Context) : List Json → List Json
  | [] => []
  | j :: js => fill ctx j :: fillItems ctx js

def fillMembers (ctx : Context) : List (String × Json) → List (String × Json)
  | [] => []
  | (k, j) :: rest => (k, fill ctx j) :: fillMembers ctx rest

end

end Context

structure RuleGate where
  refused : List Method := []
  /-- A filter in tagged form; what does not read as one requires nothing. -/
  filter : Option Json := none
  denied : List ChangeRule := []

def RuleGate.toGate (g : RuleGate) : Gate where
  allows := fun _ m _ => m ∉ g.refused
  required := fun _ ctx => g.filter.bind fun template => Filter.ofJson? (ctx.fill template)
  permits := fun change _ => !g.denied.any (·.covers change)

end NestedResources
