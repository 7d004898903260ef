import NestedResources.Query.OfParams
import NestedResources.Read.Reading
import NestedResources.Write.Mutation

/-!
# Operations on resources

Every operation first asks the gate of the resource whether the method is allowed. Writes read the
entities they touched again, so that the answer has the fields and embeds that were asked for.
-/
namespace NestedResources

/-- Resources with their gates, and how they are queried and rendered. -/
structure Service where
  registry : Registry
  limits : QueryLimits := {}
  style : RenderStyle := {}

/-- What a deletion answers. -/
structure Deleted where
  identities : List Identity
  writes : Nat

def Deleted.toJson (d : Deleted) : Json :=
  .object [("deleted", .arr (d.identities.map Identity.toJson)), ("writes", .nat d.writes)]

/-- What a deletion applies to. -/
inductive DeleteTarget where
  | entity (identity : Identity)
  /-- Every visible entity that the filter of a query selects. -/
  | query (params : Params)

namespace Service

variable (svc : Service) (ctx : Context)

def schema : Schema := svc.registry.schema

/-- The tables as they are. -/
def tables : Serving Tables := do pure (← get).store.tables

def isAllowed (r : Resource) (m : Method) : Bool := (svc.registry.gate r.name).allows r m ctx

/-- The methods that the gate allows; `OPTIONS` always is. -/
def allowedMethods (r : Resource) : List Method :=
  ([.get, .post, .put, .patch, .delete] : List Method).filter (svc.isAllowed ctx r) ++ [.options]

def ensureAllowed (r : Resource) (m : Method) : Except Error Unit :=
  if svc.isAllowed ctx r m then .ok () else .error (.denied r.name (.method m))

/-- A relationship of a resource with its target. -/
def related (r : Resource) (name : String) : Except Error (Relationship × Resource) :=
  match r.relationship? name with
  | none => .error (.notFound r.name name)
  | some rel => do .ok (rel, ← svc.schema.require rel.target)

def readQuery (r : Resource) (params : Params) : Except Error Query :=
  QuerySite.read ⟨svc.schema, svc.limits⟩ r params

def reading (r : Resource) (q : Query) (scope : Option Predicate) : Except Error Reading :=
  svc.registry.reading ctx r.name q scope

/-- A window of the first row. -/
def firstOnly : Window := ⟨0, some 1⟩

/-- The rows that a query selects. -/
def rows (r : Resource) (q : Query) (scope : Option Predicate) : Serving (List Row) := do
  let reading ← svc.reading ctx r q scope
  reading.rows (← tables) svc.schema

def collection (r : Resource) (q : Query) (scope : Option Predicate) : Serving Collection := do
  let reading ← svc.reading ctx r q scope
  reading.collection (← tables) svc.schema svc.style

def first (r : Resource) (q : Query) (scope : Option Predicate) : Serving (Option Json) := do
  let reading ← svc.reading ctx r q scope
  reading.first (← tables) svc.schema svc.style

/-- An entity as a query renders it. -/
def fetchOne (r : Resource) (i : Identity) (q : Query) : Serving (Option Json) :=
  svc.first ctx r q (some (.identity r i))

/-- The members of a relationship of an entity. -/
def membership (r : Resource) (i : Identity) (rel : Relationship) : Predicate :=
  .memberOf r.name i rel.name

/-- Refuses an entity that does not exist or that the gate hides. -/
def ensureVisible (r : Resource) (i : Identity) : Serving Unit := do
  let rows ← svc.rows ctx r { window := firstOnly } (some (.identity r i))
  if rows.isEmpty then throw (.notFound r.name i.key)

/-! ## Reading -/

def list (r : Resource) (params : Params) : Serving Collection := do
  svc.ensureAllowed ctx r .get
  let q ← svc.readQuery r params
  svc.collection ctx r q none

def getEntity (r : Resource) (i : Identity) (params : Params) : Serving Json := do
  svc.ensureAllowed ctx r .get
  let q ← svc.readQuery r params
  match ← svc.fetchOne ctx r i { q with window := .unbounded } with
  | some entity => pure entity
  | none => throw (.notFound r.name i.key)

/-- One rendered field of an entity. -/
def getField (r : Resource) (i : Identity) (field : String) : Serving Json := do
  svc.ensureAllowed ctx r .get
  if !(r.field? field).any Field.isRendered then throw (.notFound r.name (i.key ++ "/" ++ field))
  match ← svc.fetchOne ctx r i {} with
  | some entity => pure (entity.getD field)
  | none => throw (.notFound r.name i.key)

/-- The members of a relationship of one entity, queried like a collection. -/
def listRelated (r : Resource) (i : Identity) (relationship : String) (params : Params) :
    Serving Collection := do
  svc.ensureAllowed ctx r .get
  let (rel, target) ← svc.related r relationship
  svc.ensureAllowed ctx target .get
  svc.ensureVisible ctx r i
  let q ← svc.readQuery target params
  svc.collection ctx target q (some (membership r i rel))

/-- The member of a to-one relationship, or null. -/
def getRelatedOne (r : Resource) (i : Identity) (relationship : String) (params : Params) :
    Serving Json := do
  svc.ensureAllowed ctx r .get
  let (rel, target) ← svc.related r relationship
  svc.ensureAllowed ctx target .get
  svc.ensureVisible ctx r i
  let q ← svc.readQuery target params
  let found ← svc.first ctx target { q with window := firstOnly } (some (membership r i rel))
  pure (found.getD .null)

/-- The identity of the member of a to-one relationship. -/
def relatedIdentity (r : Resource) (i : Identity) (relationship : String) :
    Serving (Option Identity) := do
  let (rel, target) ← svc.related r relationship
  let rows ← svc.rows ctx target { window := firstOnly } (some (membership r i rel))
  pure (rows.head?.bind fun row => target.identityOf? row.record)

/-- Whether an entity is a visible member of a relationship. -/
def hasMember (r : Resource) (i : Identity) (relationship : String) (child : Identity) :
    Serving Bool := do
  let (rel, target) ← svc.related r relationship
  let scope := Predicate.all [membership r i rel, .identity target child]
  let rows ← svc.rows ctx target {} (some scope)
  pure (!rows.isEmpty)

/-! ## Writing -/

def commit (walking : WalkSite → Walking (List EntityRef)) : Serving Outcome :=
  Serving.commit svc.registry ctx walking

/-- An entity after a write; if it is hidden now, its identity. -/
def reread (r : Resource) (q : Query) (i : Identity) : Serving Json := do
  pure ((← svc.fetchOne ctx r i q).getD (r.identityDocument i))

/-- Creates an entity from an object, or one for each item of an array. -/
def create (r : Resource) (document : Json) (params : Params) : Serving Json := do
  svc.ensureAllowed ctx r .post
  let q ← svc.readQuery r params
  let q := { q with window := .unbounded }
  let outcome ← svc.commit ctx (·.create r.name document)
  let rendered ← outcome.identities.mapM (svc.reread ctx r q)
  pure (if document.isArray then .arr rendered else rendered.headD .null)

/-- Updates an entity; with `replace` its required fields must all be given. -/
def update (r : Resource) (i : Identity) (document : Json) (mode : WriteMode) (params : Params) :
    Serving Json := do
  svc.ensureAllowed ctx r (if mode = .replace then .put else .patch)
  let q ← svc.readQuery r params
  let q := { q with window := .unbounded }
  let _ ← svc.commit ctx (·.update r.name i document mode)
  svc.reread ctx r q i

/-- Writes one field from a bare value; the answer is its new value. -/
def updateField (r : Resource) (i : Identity) (field : String) (value : Json) : Serving Json := do
  svc.ensureAllowed ctx r .patch
  let _ ← svc.commit ctx (·.updateField r.name i field value)
  let entity ← svc.fetchOne ctx r i {}
  pure ((entity.map (Json.getD field)).getD .null)

/-- Applies the items of an array to the whole collection. -/
def patchCollection (r : Resource) (items : Json) (params : Params) : Serving (List Json) := do
  svc.ensureAllowed ctx r .patch
  let q ← svc.readQuery r params
  let q := { q with window := .unbounded }
  let outcome ← svc.commit ctx (·.patchCollection r.name items)
  outcome.identities.mapM (svc.reread ctx r q)

/-- Creates a member of a relationship, or links the entity that the document names. -/
def createRelated (r : Resource) (i : Identity) (relationship : String) (document : Json)
    (params : Params) : Serving Json := do
  svc.ensureAllowed ctx r .patch
  let (rel, target) ← svc.related r relationship
  svc.ensureAllowed ctx target .post
  let q ← svc.readQuery target params
  let q := { q with window := .unbounded }
  let named := document.object?.bind target.identityIn?
  let patch := Json.obj [(rel.name, if rel.isMany then .arr [document] else document)]
  let outcome ← svc.commit ctx (·.update r.name i patch .patch)
  match named.or (outcome.firstCreated? target.name) with
  | none => pure .null
  | some child => svc.reread ctx target q child

/-- Applies the items of an array to the members of a relationship; the answer is the members. -/
def patchRelated (r : Resource) (i : Identity) (relationship : String) (items : Json)
    (params : Params) : Serving Collection := do
  svc.ensureAllowed ctx r .patch
  if !items.isArray then throw (.badRequest .patchNotAnArray)
  let _ ← svc.commit ctx (·.update r.name i (.obj [(relationship, items)]) .patch)
  svc.listRelated ctx r i relationship params

def delete (r : Resource) (target : DeleteTarget) : Serving Deleted := do
  svc.ensureAllowed ctx r .delete
  let outcome ← match target with
    | .entity i => svc.commit ctx (·.delete r.name i)
    | .query params => do
      let q ← svc.readQuery r params
      let predicate ← match q.filter with
        | none => pure none
        | some f => do pure (some (← svc.registry.compile ctx r f))
      svc.commit ctx (·.deleteWhere r.name predicate)
  pure ⟨outcome.identities, outcome.writes⟩

end Service

end NestedResources
