import NestedResources.Schema.Validation
import NestedResources.Write.Walk

/-!
# Writing documents

Every object in a document is an entity, found by its identity or created. Its fields are checked
and planned, it is linked to the entity around it, and its relationships are walked in turn. An
object may say by `$op` what it is there for.
-/
namespace NestedResources

/-- Whether what a document leaves out is left as it is. -/
inductive WriteMode where
  /-- Required fields must be present, and to-many relationships get exactly the items given. -/
  | replace
  | patch
deriving DecidableEq

/-- What an object of a document asks for. -/
inductive DocumentOp where
  /-- Associates the entity, creating it first if it is new. -/
  | add
  /-- Updates the entity, which must exist. -/
  | update
  /-- Detaches the entity, or deletes it at the top. -/
  | remove
deriving DecidableEq

namespace DocumentOp

/-- The member of an object that names its op. -/
def key : String := "$op"

def read : Json → Except Error DocumentOp
  | .str s =>
    if s = "add" ∨ s = "set" then .ok add
    else if s = "update" then .ok update
    else if s = "remove" then .ok remove
    else .error (.badRequest (.unknownOp s))
  | _ => .error (.badRequest .opNotText)

def ofMembers? (members : List (String × Json)) : Except Error (Option DocumentOp) :=
  match Entries.get? key members with
  | none => .ok none
  | some value => (read value).map some

end DocumentOp

/-- The member of an entity that holds its own URL. -/
def selfKey : String := "self"

/-- An entity that a document was walked for. -/
structure Visited where
  reference : EntityRef
  removed : Bool

/-- An object whose entity has been looked up. -/
inductive Opened where
  /-- Nothing more is to be done. -/
  | settled (visited : Option Visited)
  /-- The entity is to be written. -/
  | entered (op : Option DocumentOp) (identity : Option Identity) (known : Option Known)

/-- What the fields of an object are checked against. -/
structure Scope where
  resource : Resource
  path : String
  position : Position
  identity : Option Identity
  known : Option Known

namespace Scope

def creating (s : Scope) : Bool := s.known.isNone

def existing (s : Scope) : Option Record := s.known.bind Known.existing?

def action (s : Scope) : Action := if s.creating then .create else .update

def change (s : Scope) (subject : Subject) (value : Json) : Change where
  resource := s.resource
  subject
  action := s.action
  value := some value
  existing := s.existing
  parent := s.position.parent?

end Scope

/-- The columns of a new entity that links will set: the relationship that leads to it, and the
references that its document spells out. -/
def linkedColumns (r : Resource) (position : Position) (members : List (String × Json)) :
    List String :=
  let outer := match position with
    | .nested p => match p.relationship.join with
      | .reverse _ held => if p.relationship.target = r.name then held else []
      | _ => []
    | .root _ => []
  outer ++ members.flatMap fun (key, raw) =>
    if key = DocumentOp.key ∨ key = selfKey then []
    else match (r.relationship? key).map Relationship.join with
      | some (.foreignKey own _) => if raw.isObject then own else []
      | _ => []

/-- Whether a field already has a value. -/
def Field.isUnchanged (f : Field) (stored : Option Json) (value : Json) : Bool :=
  match stored with
  | none | some .null => value.isNull
  | some old => old.same value || comparesEqual f.type old value

namespace WalkSite

open Walking

variable (site : WalkSite)

/-- Where identity issues are reported. -/
def identityPath (r : Resource) (path : String) : String := joinPath path (Text.join "," r.identity)

/-- The identity of an object. At the top of an update it is prescribed. -/
def identityOf (r : Resource) (path : String) (position : Position) (members : List (String × Json)) :
    Walking (Option Identity) := do
  let given := r.identityIn? members
  match position.identity? with
  | none => pure given
  | some i =>
    if given.any (·.key ≠ i.key) then issue (identityPath r path) .identityImmutable
    pure (some i)

/-- Looks up the entity of an object, and settles objects that go no further. -/
def openObject (r : Resource) (path : String) (position : Position) (members : List (String × Json)) :
    Walking Opened := do
  let op ← DocumentOp.ofMembers? members
  let identity ← identityOf r path position members
  let known ← match identity with
    | some i => site.lookup r i
    | none => pure none
  match known with
  | none =>
    if op = some .update ∨ op = some .remove ∨ position.identity?.isSome then
      match identity with
      | some i => throw (.notFound r.name i.key)
      | none => throw (.badRequest (.identityNeeded r.name (pathOrRoot path)))
    else pure (.entered op identity none)
  | some k =>
    match position with
    | .root .create =>
      issue (identityPath r path) (.identityExists r.name ((identity.map Identity.key).getD ""))
      pure (.settled none)
    | _ =>
      if op = some .remove then
        match position with
        | .nested p => site.unlink p r k path (.obj members)
        | .root _ => site.planDelete r k
        pure (.settled (some ⟨k.reference, true⟩))
      else pure (.entered op identity (some k))

/-- Checks one member of an object that is a field, and adds its column to the values to write. -/
def readField (s : Scope) (values : Record) (key : String) (raw : Json) : Walking Record := do
  let path := joinPath s.path key
  match s.resource.field? key with
  | none =>
    issue path (.unknownField key s.resource.name)
    pure values
  | some field =>
    match field.check path raw with
    | .error found =>
      addIssues found
      pure values
    | .ok value =>
      let isIdentity := s.resource.isIdentity field.name
      if s.known.any fun k => field.isUnchanged (k.record.get? field.column) value then pure values
      else if isIdentity && !s.creating then
        issue path .identityImmutable
        pure values
      else if field.readOnly && !isIdentity then
        issue path (.fieldReadOnly key)
        pure values
      else
        site.permit (site.registry.gateWithRef s.resource.name) (s.change (.field field.name) value)
        pure (values.insert field.column value)

/-- Checks the members of an object that are fields. -/
def readFields (s : Scope) (members : List (String × Json)) : Walking Record :=
  members.foldlM (fun values (key, raw) =>
    if key = DocumentOp.key ∨ key = selfKey ∨ (s.resource.relationship? key).isSome then pure values
    else site.readField s values key raw) .empty

/-- Reports the required fields that an object lacks. -/
def requireFields (s : Scope) (members : List (String × Json)) : Walking Unit := do
  let linked := linkedColumns s.resource s.position members
  (s.resource.fields.filter Field.requiredOnInput).forM fun field => do
    let given := (Entries.get? field.name members).isSome
    if given || (!s.creating && s.resource.isIdentity field.name)
        || (s.creating && field.column ∈ linked) then pure ()
    else issue (joinPath s.path field.name) .fieldMissing

/-- Plans the creation or the update of the entity of an object. -/
def place (s : Scope) (members : List (String × Json)) (values : Record) : Walking EntityRef := do
  let gate := site.registry.gateWithRef s.resource.name
  match s.known with
  | none =>
    site.permit gate (s.change .entity (.obj members))
    let (plan, reference) := (← get).plan.create s.resource.name values
    modify fun w => { w with plan }
    match s.identity with
    | some i => learn s.resource.name i.key ⟨reference, values, true⟩
    | none => pure ()
    pure reference
  | some k =>
    if !values.isEmpty then
      site.permit gate (s.change .entity (.obj members))
      command (.update s.resource.name k.reference values)
      match s.identity with
      | some i => learn s.resource.name i.key { k with record := k.record.union values }
      | none => pure ()
    pure k.reference

/-- Links the entity of a nested object to the entity around it. -/
def attach (s : Scope) (op : Option DocumentOp) (members : List (String × Json))
    (reference : EntityRef) : Walking Unit := do
  match s.position with
  | .root _ => pure ()
  | .nested p =>
    let child : Known := {
      reference
      record := (s.known.map Known.record).getD .empty
      created := s.creating || s.known.any Known.created }
    site.link p s.resource child (op = some .add) s.path (.obj members)

mutual

/-- Walks over a document of an entity of `r`. -/
def visit (r : Resource) (path : String) (position : Position) (mode : WriteMode) :
    Json → Walking (Option Visited)
  | .obj members => do
    match ← site.openObject r path position members with
    | .settled visited => pure visited
    | .entered op identity known =>
      let s : Scope := { resource := r, path, position, identity, known }
      let values ← site.readFields s members
      if s.creating || mode = .replace then requireFields s members
      let reference ← site.place s members values
      site.attach s op members reference
      visitRelationships s reference mode members
      pure (some ⟨reference, false⟩)
  | _ => do
    issue (pathOrRoot path) .notAnObject
    pure none

/-- Walks over the members of an object that are relationships. A text stands for a link that is
left alone. -/
def visitRelationships (s : Scope) (reference : EntityRef) (mode : WriteMode) :
    List (String × Json) → Walking Unit
  | [] => pure ()
  | (key, raw) :: rest => do
    if key = DocumentOp.key ∨ key = selfKey then pure ()
    else match s.resource.relationship? key with
      | none => pure ()
      | some rel =>
        let path := joinPath s.path rel.name
        if raw.isString then pure ()
        else if rel.readOnly then issue path (.relationshipReadOnly rel.name)
        else
          let target ← site.registry.schema.require rel.target
          let parent : Parent := ⟨s.resource, rel, reference, s.existing⟩
          if rel.isMany then
            match raw with
            | .arr items =>
              let mentioned ← visitItems target path parent 0 items
              if mode = .replace && !s.creating then site.unlinkAbsent parent target mentioned
            | _ => issue path (.relationshipShape rel.name true)
          else if raw.isObject then
            let _ ← visit target path (.nested parent) .patch raw
          else if raw.isNull then site.unlinkAbsent parent target []
          else issue path (.relationshipShape rel.name false)
    visitRelationships s reference mode rest

/-- Walks over the items of a to-many relationship, with the keys of those that are not removed. -/
def visitItems (target : Resource) (path : String) (parent : Parent) (index : Nat) :
    List Json → Walking (List String)
  | [] => pure []
  | item :: rest => do
    let visited ← visit target (joinPath path (toString index)) (.nested parent) .patch item
    let others ← visitItems target path parent (index + 1) rest
    match visited with
    | some v => pure (if v.removed then others else v.reference.key :: others)
    | none => pure others

end

end WalkSite

end NestedResources
