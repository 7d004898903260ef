import NestedResources.Query.Window
import NestedResources.Store.Order

/-!
# Fetching

A fetch selects rows of a resource: filtered, sorted, windowed, and with the rows of included
relationships, which are themselves filtered and sorted but never windowed.
-/
namespace NestedResources

/-- A relationship that is fetched together with its rows. -/
inductive Include where
  | mk (relationship : String) (predicate : Option Predicate) (sorts : List ColumnSort)
    (includes : List Include)

namespace Include

instance : Inhabited Include := ⟨mk "" none [] []⟩

def relationship : Include → String
  | mk r _ _ _ => r

mutual

def toJson : Include → Json
  | mk relationship predicate _ includes => .object [("relationship", .str relationship),
      ("predicate", .ofOption Predicate.toJson predicate), ("includes", .arr (toJsonAll includes))]

def toJsonAll : List Include → List Json
  | [] => []
  | i :: is => toJson i :: toJsonAll is

end

end Include

mutual

/-- A fetched row with the relationships fetched with it, in the order of names. -/
inductive Row where
  | mk (record : Record) (related : List (String × Related))

inductive Related where
  | absent
  | one (row : Row)
  | many (rows : List Row)

end

namespace Row

instance : Inhabited Row := ⟨mk .empty []⟩
instance : Inhabited Related := ⟨.absent⟩

def record : Row → Record
  | mk record _ => record

def related : Row → List (String × Related)
  | mk _ related => related

/-- Sets the rows of a relationship. -/
def attach (row : Row) (relationship : String) (rows : Related) : Row :=
  mk row.record (Entries.insert relationship rows row.related)

mutual

def toJson : Row → Json
  | mk record related =>
    .object [("record", .ofDict record), ("related", .obj (relatedToJson related))]

def memberToJson : Related → Json
  | .absent => .null
  | .one row => toJson row
  | .many rows => .arr (toJsonAll rows)

def relatedToJson : List (String × Related) → List (String × Json)
  | [] => []
  | (name, rows) :: rest => (name, memberToJson rows) :: relatedToJson rest

def toJsonAll : List Row → List Json
  | [] => []
  | row :: rows => toJson row :: toJsonAll rows

end

end Row

/-- Rows of a resource. -/
structure Fetch where
  resource : String
  predicate : Option Predicate := none
  sorts : List ColumnSort := []
  window : Window := .unbounded
  includes : List Include := []

/-- Members of a relationship, windowed for each parent. -/
structure RelatedFetch where
  /-- The resource of the parents. -/
  resource : String
  relationship : String
  parents : List Identity
  predicate : Option Predicate := none
  sorts : List ColumnSort := []
  window : Window := .unbounded
  includes : List Include := []

/-- The rows found for one parent. -/
structure RelatedRows where
  parent : Identity
  rows : List Row

/-- The relationship of a name. -/
def Resource.requireRelationship (r : Resource) (name : String) : Except Error Relationship :=
  match r.relationship? name with
  | some rel => .ok rel
  | none => .error (.store (.unknownRelationship r.name name))

namespace Tables

variable (t : Tables) (schema : Schema)

/-- Whether a row passes an optional predicate. -/
def passes (r : Resource) (predicate : Option Predicate) (record : Record) : Bool :=
  match predicate with
  | none => true
  | some p => p.holds t schema r record

/-- The candidates that pass, sorted. -/
def select (r : Resource) (candidates : List Record) (predicate : Option Predicate)
    (sorts : List ColumnSort) : List Record :=
  Sorting.sort (Record.compare r sorts) (candidates.filter (t.passes schema r predicate))

/-- What is fetched for a relationship whose members are `members`, given how to build a row. -/
def relate (rel : Relationship) (build : Record → Except Error Row) (members : List Record) :
    Except Error Related :=
  if rel.isMany then (members.mapM build).map .many
  else match members with
    | [] => .ok .absent
    | member :: _ => (build member).map .one

mutual

/-- The row with what is included. Of two includes of one relationship the later counts. -/
def buildRow (r : Resource) (row : Row) : List Include → Except Error Row
  | [] => .ok row
  | i :: is => do
    let (name, related) ← buildInclude r row.record i
    buildRow r (row.attach name related) is

def buildInclude (r : Resource) (record : Record) : Include → Except Error (String × Related)
  | .mk name predicate sorts includes => do
    let rel ← r.requireRelationship name
    let target ← schema.require rel.target
    let members := t.select schema target (t.members schema r record rel) predicate sorts
    let related ← relate rel (fun member => buildRow target (.mk member []) includes) members
    .ok (rel.name, related)

end

def fetch (request : Fetch) : Except Error (List Row) := do
  let r ← schema.require request.resource
  let selected := t.select schema r (t.rowsOf r.name) request.predicate request.sorts
  (request.window.apply selected).mapM fun record => t.buildRow schema r (.mk record []) request.includes

/-- The members for each parent; a parent that does not exist has none. -/
def fetchRelated (request : RelatedFetch) : Except Error (List RelatedRows) := do
  let r ← schema.require request.resource
  let rel ← r.requireRelationship request.relationship
  let target ← schema.require rel.target
  request.parents.mapM fun parent =>
    match t.row? r.name parent with
    | none => .ok ⟨parent, []⟩
    | some record => do
      let members := t.select schema target (t.members schema r record rel) request.predicate
        request.sorts
      let rows ← (request.window.apply members).mapM fun member =>
        t.buildRow schema target (.mk member []) request.includes
      .ok ⟨parent, rows⟩

/-- The number of rows that pass. -/
def count (resource : String) (predicate : Option Predicate) : Except Error Nat := do
  let r ← schema.require resource
  .ok ((t.rowsOf resource).countP (t.passes schema r predicate))

end Tables

end NestedResources
