import NestedResources.Filter.Compile
import NestedResources.Store.Commit

/-!
# Walks

A write walks over a document and builds a plan. The state of a walk is the plan so far, the issues
found, what is known of entities and memberships after the planned commands, and the gates that were
consulted. An error ends the walk; issues do not.
-/
namespace NestedResources

/-- An entity that the walk has met. -/
structure Known where
  reference : EntityRef
  /-- The stored row with the writes planned so far. -/
  record : Record
  /-- Whether the plan creates it. -/
  created : Bool

/-- The stored row of an entity that the plan does not create. -/
def Known.existing? (k : Known) : Option Record := if k.created then none else some k.record

/-- One question put to a gate. -/
structure Consultation where
  gate : GateRef
  change : Change
  allowed : Bool

/-- The entity that a nested document hangs off. -/
structure Parent where
  resource : Resource
  relationship : Relationship
  reference : EntityRef
  existing : Option Record

def Parent.forChange (p : Parent) : ChangeParent := ⟨p.resource, p.relationship, p.existing⟩

/-- What happens to the documents at the top. -/
inductive Root where
  | create
  | update (identity : Identity)
  /-- Creates or updates, as each document says. -/
  | collection

/-- Where a document stands. -/
inductive Position where
  | root (root : Root)
  | nested (parent : Parent)

def Position.parent? : Position → Option ChangeParent
  | root _ => none
  | nested p => some p.forChange

/-- The identity that a position prescribes. -/
def Position.identity? : Position → Option Identity
  | root (.update i) => some i
  | _ => none

/-- How an entity is told apart within a plan. -/
def EntityRef.key : EntityRef → String
  | existing i => i.key
  | pending slot => "#pending/" ++ toString slot

structure LinkKey where
  resource : String
  relationship : String
  parent : String
  child : String
deriving DecidableEq

def Parent.linkKey (p : Parent) (child : EntityRef) : LinkKey :=
  ⟨p.resource.name, p.relationship.name, p.reference.key, child.key⟩

/-- The first value of a key. -/
def firstOf? {κ α : Type} [DecidableEq κ] (key : κ) (pairs : List (κ × α)) : Option α :=
  (pairs.find? (·.1 = key)).map (·.2)

structure Walk where
  plan : Plan := {}
  issues : List Issue := []
  /-- Entities by resource and key, what was learnt last first. -/
  known : List ((String × String) × Known) := []
  /-- Memberships that the plan changes, the last change first. -/
  memberships : List (LinkKey × Bool) := []
  consulted : List Consultation := []

instance : Inhabited Walk := ⟨{}⟩

abbrev Walking := ExceptT Error (StateM Walk)

/-- What a walk reads: nothing is written before the plan is committed. -/
structure WalkSite where
  registry : Registry
  ctx : Context
  tables : Tables

/-! ## Paths -/

def joinPath (base segment : String) : String :=
  if base = "" then segment else base ++ "." ++ segment

/-- The path of a document; the whole document is `$`. -/
def pathOrRoot (path : String) : String := if path = "" then "$" else path

namespace Walking

def addIssues (issues : List Issue) : Walking Unit :=
  modify fun w => { w with issues := w.issues ++ issues }

def issue (path : String) (d : Defect) : Walking Unit := addIssues [d.issueAt path]

def command (c : Command) : Walking Unit := modify fun w => { w with plan := w.plan.push c }

/-- Records whether an entity is a member from here on. -/
def setMember (key : LinkKey) (value : Bool) : Walking Unit :=
  modify fun w => { w with memberships := (key, value) :: w.memberships }

/-- Records what is known of an entity from here on. -/
def learn (resource key : String) (k : Known) : Walking Unit :=
  modify fun w => { w with known := ((resource, key), k) :: w.known }

end Walking

namespace WalkSite

open Walking

variable (site : WalkSite)

/-- Puts a change to a gate; a refusal ends the walk. -/
def permit (gate : GateRef × Gate) (change : Change) : Walking Unit := do
  let allowed := gate.2.permits change site.ctx
  modify fun w => { w with consulted := w.consulted ++ [⟨gate.1, change, allowed⟩] }
  if !allowed then throw (.denied change.resource.name (.change change.action change.subject))

/-- Finds an entity: among those met, or else in the store. One that the gate hides is not found. -/
def lookup (r : Resource) (i : Identity) : Walking (Option Known) := do
  match firstOf? (r.name, i.key) (← get).known with
  | some known => pure (some known)
  | none =>
    let required ← site.registry.required site.ctx r
    let predicate := Predicate.conjoin (some (.identity r i)) required
    let request : Fetch := { resource := r.name, predicate, window := ⟨0, some 1⟩ }
    match ← site.tables.fetch site.registry.schema request with
    | row :: _ =>
      let found := (r.identityOf? row.record).getD i
      let known : Known := ⟨.existing found, row.record, false⟩
      learn r.name i.key known
      pure (some known)
    | [] =>
      if required.isSome then
        let hidden ← site.tables.count site.registry.schema r.name (some (.identity r i))
        if 0 < hidden then throw (.notFound r.name i.key)
      pure none

/-! ## Members -/

/-- Whether an entity is a member, after the commands planned so far. -/
def isMember (p : Parent) (target : Resource) (child : EntityRef) : Walking Bool := do
  match firstOf? (p.linkKey child) (← get).memberships with
  | some value => pure value
  | none =>
    match p.reference, child with
    | .existing parent, .existing i =>
      let predicate := Predicate.all [.identity target i,
        .memberOf p.resource.name parent p.relationship.name]
      let found ← site.tables.count site.registry.schema target.name (some predicate)
      pure (0 < found)
    | _, _ => pure false

/-- The stored members that the caller sees, without those detached earlier in the walk. -/
def currentMembers (p : Parent) (target : Resource) : Walking (List Known) := do
  match p.reference with
  | .pending _ => pure []
  | .existing parent =>
    let scope := Predicate.memberOf p.resource.name parent p.relationship.name
    let predicate := Predicate.conjoin (some scope) (← site.registry.required site.ctx target)
    let rows ← site.tables.fetch site.registry.schema { resource := target.name, predicate }
    let memberships := (← get).memberships
    pure (rows.filterMap fun row => do
      let i ← target.identityOf? row.record
      let reference := EntityRef.existing i
      if firstOf? (p.linkKey reference) memberships = some false then none
      else some ⟨reference, row.record, false⟩)

/-- Asks both ends of a relationship about a change of a membership. -/
def permitRelationship (p : Parent) (target : Resource) (child : Option Record) (action : Action)
    (value : Option Json) : Walking Unit := do
  site.permit (site.registry.relationshipGateWithRef p.resource.name p.relationship.name) {
    resource := p.resource
    subject := .relationship p.relationship.name
    action
    value
    existing := p.existing
    parent := none }
  match p.relationship.inverse.bind target.relationship? with
  | none => pure ()
  | some inverse =>
    site.permit (site.registry.relationshipGateWithRef target.name inverse.name) {
      resource := target
      subject := .relationship inverse.name
      action
      value := none
      existing := child
      parent := some p.forChange }

/-- The change of a membership as part of a plan. -/
def linkChange (p : Parent) (child : EntityRef) : LinkChange :=
  ⟨p.resource.name, p.relationship.name, p.reference, child⟩

def planUnlink (p : Parent) (target : Resource) (child : Known) (value : Option Json) :
    Walking Unit := do
  site.permitRelationship p target child.existing? .remove value
  command (.unlink (linkChange p child.reference))
  setMember (p.linkKey child.reference) false

/-- Detaches a member whose key is not among those kept. A foreign key that another member is about
to take is overwritten by the new link. -/
def displace (p : Parent) (target : Resource) (keep : List String) (member : Known) :
    Walking Unit := do
  if member.reference.key ∈ keep then pure ()
  else if p.relationship.join.isForeignKey && !keep.isEmpty then
    site.permitRelationship p target member.existing? .remove none
    setMember (p.linkKey member.reference) false
  else site.planUnlink p target member none

/-- Detaches the members whose keys are not among those kept. -/
def unlinkAbsent (p : Parent) (target : Resource) (keep : List String) : Walking Unit := do
  (← site.currentMembers p target).forM (site.displace p target keep)

/-- Makes an entity a member; it is an issue if it explicitly should become one and is one. -/
def link (p : Parent) (target : Resource) (child : Known) (explicit : Bool) (path : String)
    (value : Json) : Walking Unit := do
  if ← site.isMember p target child.reference then
    if explicit then issue (pathOrRoot path) (.alreadyMember p.relationship.name)
  else
    if !p.relationship.isMany then site.unlinkAbsent p target [child.reference.key]
    site.permitRelationship p target child.existing? .add (some value)
    command (.link (linkChange p child.reference))
    setMember (p.linkKey child.reference) true

/-- Detaches an entity; it is an issue if it is no member. -/
def unlink (p : Parent) (target : Resource) (child : Known) (path : String) (value : Json) :
    Walking Unit := do
  if ← site.isMember p target child.reference then site.planUnlink p target child (some value)
  else issue (pathOrRoot path) (.notMember p.relationship.name)

/-- Plans the deletion of an entity. -/
def planDelete (r : Resource) (known : Known) : Walking Unit := do
  site.permit (site.registry.gateWithRef r.name) {
    resource := r
    subject := .entity
    action := .delete
    value := none
    existing := known.existing?
    parent := none }
  command (.delete r.name known.reference)

end WalkSite

end NestedResources
