import NestedResources.Schema.Schema
import NestedResources.Store.Links
import NestedResources.Store.Predicate

/-!
# Tables

The rows of every resource, filed under identity keys, and the association tables. What belongs to
a relationship of a row is `Tables.members`.
-/
namespace NestedResources

/-- Equality of two column values: as documents, or as scalars of one kind. -/
def sameValue (left right : Json) : Bool := left.same right || comparesEqual .json left right

namespace Record

/-- The values of columns, if all of them are set. -/
def values? (r : Record) (columns : List String) : Option (List Json) := columns.mapM r.value?

/-- Whether the columns have the wanted values, one for each. -/
def hasValues (r : Record) (columns : List String) (wanted : List Json) : Bool :=
  (columns.zip wanted).all fun (column, value) =>
    match r.get? column with
    | some v => sameValue v value
    | none => false

/-- Writes values into columns, except where the very same value is already there. The flag says
whether anything was written. -/
def assign (r : Record) (assignments : List (String × Json)) : Record × Bool :=
  assignments.foldl (fun (r, changed) (column, value) =>
    match r.get? column with
    | some v => if v.same value then (r, changed) else (r.insert column value, true)
    | none => (r.insert column value, true)) (r, false)

end Record

/-- Rows of resources by identity key, and links of association tables. -/
structure Tables where
  rows : Dict (Dict Record)
  links : Dict LinkTable

namespace Tables

def empty : Tables := ⟨.empty, .empty⟩

instance : Inhabited Tables := ⟨empty⟩

/-- The rows of a resource by key. -/
def table (t : Tables) (resource : String) : Dict Record := (t.rows.get? resource).getD .empty

def rowAt? (t : Tables) (resource key : String) : Option Record := (t.table resource).get? key

/-- The row of an entity. -/
def row? (t : Tables) (resource : String) (i : Identity) : Option Record := t.rowAt? resource i.key

/-- The rows of a resource in key order. -/
def rowsOf (t : Tables) (resource : String) : List Record := (t.table resource).values

/-- The links of an association table. -/
def linksOf (t : Tables) (name : String) : LinkTable := (t.links.get? name).getD .empty

/-- Files a row under a key, over a row that is there. -/
def putRow (t : Tables) (resource key : String) (record : Record) : Tables :=
  { t with rows := t.rows.insert resource ((t.table resource).insert key record) }

/-- Drops a row. The table of the resource stays, even without rows. -/
def dropRow (t : Tables) (resource key : String) : Tables :=
  match t.rows.get? resource with
  | some rows => { t with rows := t.rows.insert resource (rows.erase key) }
  | none => t

def putLink (t : Tables) (name : String) (link : Link) : Tables :=
  { t with links := t.links.insert name ((t.linksOf name).insert link) }

/-- Keeps the links of a table that pass a test. The table stays, even without links. -/
def filterLinks (t : Tables) (name : String) (keep : Link → Bool) : Tables :=
  match t.links.get? name with
  | some links => { t with links := t.links.insert name (links.filter keep) }
  | none => t

/-- Files a row under the key of its own identity. -/
def insert (t : Tables) (schema : Schema) (resource : String) (record : Record) :
    Except Error Tables := do
  let r ← schema.require resource
  match r.identityOf? record with
  | some identity => .ok (t.putRow resource identity.key record)
  | none => .error (.store (.rowWithoutIdentity resource))

/-- The rows at the other end of a relationship of a row: by matching columns in the order of the
keys, or the rows that exist for the keys of an association table, each once. -/
def members (t : Tables) (schema : Schema) (owner : Resource) (record : Record)
    (rel : Relationship) : List Record :=
  match schema.target? rel with
  | none => []
  | some target =>
    match rel.join with
    | .foreignKey own other | .reverse own other =>
      match record.values? own with
      | none => []
      | some wanted => (t.rowsOf target.name).filter (·.hasValues other wanted)
    | .association name own other =>
      match owner.identityOf? record with
      | none => []
      | some identity =>
        let mine := (t.linksOf name).links.filter fun link => link.get? own = some identity.key
        let keys := (Dict.ofList ((mine.filterMap (·.get? other)).map (·, ()))).keys
        keys.filterMap (t.rowAt? target.name)

/-- The number of rows of all resources. -/
def size (t : Tables) : Nat := t.rows.values.foldl (fun n rows => n + rows.size) 0

end Tables

namespace Predicate

/-- Whether a row of `r` is filed among `rows` by its own identity. -/
def isAmong (r : Resource) (record : Record) (rows : List Record) : Bool :=
  match r.identityOf? record with
  | none => false
  | some own => rows.any fun row => (r.identityOf? row).any (·.key = own.key)

mutual

/-- Whether a row of `r` satisfies a predicate. -/
def holds (t : Tables) (schema : Schema) (r : Resource) (record : Record) : Predicate → Bool
  | and children => holdsAll t schema r record children
  | or children => holdsAny t schema r record children
  | not children => !holdsAll t schema r record children
  | compare column type operator value => operator.holds type (record.get? column) value
  | related relationship target inner =>
    match r.relationship? relationship, schema.resource? target with
    | some rel, some target =>
      (t.members schema r record rel).any fun member => holds t schema target member inner
    | _, _ => false
  | memberOf resource identity relationship =>
    match schema.resource? resource with
    | none => false
    | some parent =>
      match parent.relationship? relationship, t.row? resource identity with
      | some rel, some row => isAmong r record (t.members schema parent row rel)
      | _, _ => false

def holdsAll (t : Tables) (schema : Schema) (r : Resource) (record : Record) : List Predicate → Bool
  | [] => true
  | p :: ps => holds t schema r record p && holdsAll t schema r record ps

def holdsAny (t : Tables) (schema : Schema) (r : Resource) (record : Record) : List Predicate → Bool
  | [] => false
  | p :: ps => holds t schema r record p || holdsAny t schema r record ps

end

end Predicate

end NestedResources
