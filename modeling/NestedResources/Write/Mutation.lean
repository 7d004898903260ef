import NestedResources.Write.Document

/-!
# Writes

A write walks over its documents, then commits the plan at once. If there are issues, or if the walk
or the commit fails, the store is as it was.
-/
namespace NestedResources

/-- What a write did. -/
structure Outcome where
  /-- The entities at the top of the documents. -/
  identities : List Identity
  /-- Every entity created, with its resource. -/
  created : List (String × Identity)
  writes : Nat

/-- The first entity of a resource that was created. -/
def Outcome.firstCreated? (o : Outcome) (resource : String) : Option Identity :=
  (o.created.find? (·.1 = resource)).map (·.2)

/-- The state that requests share: the store, and the gates consulted so far. -/
structure Desk where
  store : Store
  consulted : List Consultation := []

instance : Inhabited Desk := ⟨⟨default, []⟩⟩

abbrev Serving := ExceptT Error (StateM Desk)

namespace WalkSite

open Walking

variable (site : WalkSite)

/-- Walks over one document at the top; the reference of its entity, unless it is skipped. -/
def visitRoot (r : Resource) (path : String) (root : Root) (mode : WriteMode) (document : Json) :
    Walking (Option Visited) :=
  site.visit r path (.root root) mode document

/-- Walks over documents that are numbered from `index` on. -/
def visitRoots (r : Resource) (root : Root) (index : Nat) : List Json → Walking (List Visited)
  | [] => pure []
  | item :: rest => do
    let visited ← site.visitRoot r (toString index) root .patch item
    let others ← visitRoots r root (index + 1) rest
    pure (visited.toList ++ others)

/-- Plans the creation of one entity, or of one for each item of an array. -/
def create (resource : String) (document : Json) : Walking (List EntityRef) := do
  let r ← site.registry.schema.require resource
  let visited ← match document with
    | .arr items => site.visitRoots r .create 0 items
    | _ => do
      let visited ← site.visitRoot r "" .create .patch document
      pure visited.toList
  pure (visited.map Visited.reference)

/-- Plans the update of an entity. -/
def update (resource : String) (i : Identity) (document : Json) (mode : WriteMode) :
    Walking (List EntityRef) := do
  let r ← site.registry.schema.require resource
  let visited ← site.visitRoot r "" (.update i) mode document
  pure (visited.toList.map Visited.reference)

/-- Plans the update of one field. -/
def updateField (resource : String) (i : Identity) (field : String) (value : Json) :
    Walking (List EntityRef) := do
  let r ← site.registry.schema.require resource
  if (r.field? field).isNone then throw (.notFound resource (i.key ++ "/" ++ field))
  site.update resource i (.obj [(field, value)]) .patch

/-- Plans what the items of an array say, each for an entity of the resource. -/
def patchCollection (resource : String) (document : Json) : Walking (List EntityRef) := do
  let r ← site.registry.schema.require resource
  match document with
  | .arr items =>
    let visited ← site.visitRoots r .collection 0 items
    pure ((visited.filter (!·.removed)).map Visited.reference)
  | _ => throw (.badRequest .patchNotAnArray)

/-- Plans the deletion of an entity. -/
def delete (resource : String) (i : Identity) : Walking (List EntityRef) := do
  let r ← site.registry.schema.require resource
  match ← site.lookup r i with
  | none => throw (.notFound resource i.key)
  | some known =>
    site.planDelete r known
    pure [known.reference]

/-- Plans the deletion of every visible entity that satisfies a predicate. -/
def deleteWhere (resource : String) (predicate : Option Predicate) : Walking (List EntityRef) := do
  let r ← site.registry.schema.require resource
  let predicate := Predicate.conjoin predicate (← site.registry.required site.ctx r)
  let rows ← site.tables.fetch site.registry.schema { resource := r.name, predicate }
  let known := rows.filterMap fun row =>
    (r.identityOf? row.record).map fun i => Known.mk (.existing i) row.record false
  known.forM (site.planDelete r)
  pure (known.map Known.reference)

end WalkSite

/-- What a plan did, by the report of its commit. -/
def Outcome.ofReport (plan : Plan) (roots : List EntityRef) (report : Report) : Outcome where
  identities := roots.filterMap report.resolve?
  created := plan.commands.filterMap fun
    | .create slot resource _ => report.created[slot]?.map (resource, ·)
    | _ => none
  writes := report.writes

namespace Serving

/-- The outcome of a finished walk. -/
def settle (schema : Schema) (store : Store) (roots : List EntityRef) (w : Walk) :
    Except Error (Store × Outcome) :=
  if w.issues.isEmpty then do
    let (store, report) ← store.apply schema w.plan
    pure (store, .ofReport w.plan roots report)
  else .error (.unprocessable w.issues)

/-- Runs a walk on the store as it is and commits its plan. -/
def commit (registry : Registry) (ctx : Context) (walking : WalkSite → Walking (List EntityRef)) :
    Serving Outcome := do
  let desk ← get
  let (result, w) := (walking ⟨registry, ctx, desk.store.tables⟩).run.run {}
  set { desk with consulted := desk.consulted ++ w.consulted }
  let roots ← result
  let (store, outcome) ← settle registry.schema desk.store roots w
  modify fun desk => { desk with store }
  pure outcome

end Serving

end NestedResources
