import NestedResources.Schema.FieldType
import NestedResources.Json.Printer

/-!
# Resources, fields and relationships

A resource describes entities: their fields, how an entity is identified, and its relationships to
other resources. Fields and relationships have API names; stored rows are keyed by column names.
-/
namespace NestedResources

/-- A condition on the values of a field. -/
inductive Rule where
  | length (least greatest : Option Nat)
  | range (least greatest : Option Binary64)
  | pattern (source : String)
  | choice (allowed : List String) (ignoresCase : Bool)
  | email
  | url
  | uuid
deriving DecidableEq

/-- An exposed scalar attribute of a resource. -/
structure Field where
  name : String
  /-- The column, where it differs from the name. -/
  storedAs : Option String := none
  type : FieldType := .string
  readOnly : Bool := false
  /-- Accepted on input, never rendered, never filterable. -/
  writeOnly : Bool := false
  queryable : Bool := true
  hidden : Bool := false
  optional : Bool := false
  /-- The store assigns a value on creation. -/
  generated : Bool := false
  rules : List Rule := []
deriving DecidableEq

namespace Field

def column (f : Field) : String := f.storedAs.getD f.name

def isRendered (f : Field) : Bool := !f.hidden && !f.writeOnly

/-- Whether a new entity, or one that is replaced, must supply the field. -/
def requiredOnInput (f : Field) : Bool := !f.optional && !f.readOnly && !f.generated

def isFilterable (f : Field) : Bool := f.queryable && !f.writeOnly

end Field

inductive Cardinality where
  | manyToOne
  | oneToOne
  | oneToMany
  | manyToMany
deriving DecidableEq

/-- How membership of a relationship is stored, in columns. -/
inductive Join where
  /-- The columns `own` hold the columns `referenced` of the target. -/
  | foreignKey (own referenced : List String)
  /-- The columns `held` of the target hold the columns `own`. -/
  | reverse (own held : List String)
  /-- Rows of `table` pair the identity key (`own`) with that of the target (`other`). -/
  | association (table own other : String)
deriving DecidableEq

def Join.isForeignKey : Join → Bool
  | .foreignKey _ _ => true
  | _ => false

/-- What becomes of a member that is detached from a relationship. -/
inductive Cascade where
  | delete
  | detach
deriving DecidableEq

structure Relationship where
  name : String
  /-- The name of the target resource. -/
  target : String
  cardinality : Cardinality
  join : Join
  /-- The relationship of the target that leads back. -/
  inverse : Option String := none
  cascade : Cascade := .detach
  readOnly : Bool := false
deriving DecidableEq

def Relationship.isMany (r : Relationship) : Bool :=
  r.cardinality = .oneToMany || r.cardinality = .manyToMany

structure Resource where
  name : String
  /-- The identity fields in key order. -/
  identity : List String
  fields : List Field := []
  relationships : List Relationship := []
  /-- The largest page a client may ask for, and the default page size. -/
  pageCeiling : Option UInt64 := none
deriving DecidableEq

/-- The identity values of one entity, in key order. -/
structure Identity where
  values : List Json

namespace Identity

/-- A component of a key: a string as it is, any other value as its JSON text. -/
def componentKey : Json → String
  | .str s => s
  | value => value.compact

/-- The key that a row is stored under. -/
def key (i : Identity) : String := Text.join "/" (i.values.map componentKey)

def toJson (i : Identity) : Json := .arr i.values

/-- The identity that an input spells: the values of an array, or a single value. -/
def ofJson : Json → Identity
  | .arr values => ⟨values⟩
  | value => ⟨[value]⟩

end Identity

namespace Resource

def field? (r : Resource) (name : String) : Option Field := r.fields.find? (·.name = name)

def fieldByColumn? (r : Resource) (column : String) : Option Field :=
  r.fields.find? (·.column = column)

def relationship? (r : Resource) (name : String) : Option Relationship :=
  r.relationships.find? (·.name = name)

def identityFields (r : Resource) : List Field := r.identity.filterMap r.field?

def isIdentity (r : Resource) (name : String) : Bool := name ∈ r.identity

/-- The identity of a stored row, if every identity column is set. -/
def identityOf? (r : Resource) (record : Record) : Option Identity :=
  (r.identityFields.mapM fun (f : Field) => record.value? f.column).map Identity.mk

/-- The identity that a document names, coerced to the field types. None when an identity field is
absent or null or does not fit its type. -/
def identityIn? (r : Resource) (document : List (String × Json)) : Option Identity :=
  (r.identityFields.mapM fun (f : Field) =>
    match Entries.get? f.name document with
    | none => none
    | some .null => none
    | some value => (f.type.coerce value).toOption).map Identity.mk

/-- The identity that path segments spell, one segment for each identity field. -/
def parseIdentity? (r : Resource) (segments : List String) : Option Identity :=
  if segments.length = r.identity.length then
    ((r.identityFields.zip segments).mapM fun ((f, text) : Field × String) => (f.type.coerce (.str text)).toOption).map
      Identity.mk
  else none

/-- The identity fields as a document. -/
def identityDocument (r : Resource) (i : Identity) : Json :=
  .object (r.identity.zip i.values)

end Resource

end NestedResources
