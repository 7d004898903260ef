import NestedResources.Filter.Compile
import NestedResources.Read.Selection

/-!
# Readings

A query is compiled into a reading: one fetch that brings the embeds without sorts and windows along,
and for every other embed one fetch of related rows, made from the top down and windowed for each
parent. The filter that a gate requires is added at every level.
-/
namespace NestedResources

/-- The fetch of one embed, for the rows that are found above it. -/
structure ScopedFetch where
  path : List String
  request : RelatedFetch

/-- A query that is ready to run. -/
structure Reading where
  resource : Resource
  fetch : Fetch
  scopedFetches : List ScopedFetch
  selection : Selection

/-- What a list request answers. -/
structure Collection where
  items : List Json
  available : UInt64
  page : PageInfo

def Collection.toJson (c : Collection) : Json :=
  .object [("items", .arr c.items), ("resources_available", .nat c.available.toNat),
    ("pagination", c.page.toJson)]

namespace SortKey

/-- The column that a sort key stands for. -/
def column (r : Resource) (s : SortKey) : Except Error ColumnSort :=
  match r.field? s.field with
  | some f =>
    if f.isFilterable then .ok ⟨f.column, f.type, s.order⟩
    else .error (.invalidField s.field (.notSortable s.field))
  | none => .error (.invalidField s.field (.notSortable s.field))

end SortKey

namespace Registry

variable (g : Registry) (ctx : Context)

/-- The includes for the embeds without sorts and windows below a path of `parent`, down to `levels`
levels. -/
def includesBelow (embeds : Embeds) :
    Nat → Resource → List String → Except Error (List Include)
  | 0, _, _ => .ok []
  | levels + 1, parent, path =>
    ((embeds.childrenOf path).filter (!·.isScoped)).mapM fun e => do
      let name := e.path.getLastD ""
      match parent.relationship? name with
      | none => throw (.invalidField e.dotted (.unknownRelationship name parent.name))
      | some rel =>
        let target ← g.schema.require rel.target
        let predicate ← g.restricted ctx target e.filter
        let includes ← includesBelow embeds levels target e.path
        pure (.mk name predicate [] includes)

/-- The resource that a relationship path leads to. -/
def resourceAt (path : List String) : Resource → List String → Except Error Resource
  | r, [] => .ok r
  | r, segment :: rest =>
    match r.relationship? segment with
    | none => .error (.invalidField (Text.join "." path) (.segmentNotARelationship segment))
    | some rel => do resourceAt path (← g.schema.require rel.target) rest

/-- The fetch that a sorted or windowed embed takes. -/
def scopedFetch (root : Resource) (embeds : Embeds) (e : Embed) : Except Error ScopedFetch := do
  let parents := e.path.dropLast
  let name := e.path.getLastD ""
  let parent ← g.resourceAt parents root parents
  match parent.relationship? name with
  | none => throw (.invalidField e.dotted .notARelationship)
  | some rel =>
    let target ← g.schema.require rel.target
    let predicate ← g.restricted ctx target e.filter
    let sorts ← e.sorts.mapM (SortKey.column target)
    let includes ← g.includesBelow ctx embeds embeds.height target e.path
    pure {
      path := e.path
      request := {
        resource := parent.name
        relationship := name
        parents := []
        predicate
        sorts
        window := e.window
        includes } }

/-- The reading of a query. `scope` restricts the rows at the root. -/
def reading (resource : String) (q : Query) (scope : Option Predicate) : Except Error Reading := do
  let r ← g.schema.require resource
  let embeds ← q.embeds.validate
  let predicate := Predicate.conjoin (← g.restricted ctx r q.filter) scope
  let sorts ← q.sorts.mapM (SortKey.column r)
  let includes ← g.includesBelow ctx embeds embeds.height r []
  let scopedEmbeds := Sorting.sort (fun d e => compare d.depth e.depth)
    (embeds.list.filter Embed.isScoped)
  let scopedFetches ← scopedEmbeds.mapM (g.scopedFetch ctx r embeds)
  pure {
    resource := r
    fetch := { resource := r.name, predicate, sorts, window := q.window, includes }
    scopedFetches
    selection := .ofQuery q.fields embeds }

end Registry

namespace Row

/-- The rows at the end of a relationship path. -/
def rowsAt : List String → List Row → List Row
  | [], rows => rows
  | name :: rest, rows => rows.flatMap fun (row : Row) =>
    match Entries.get? name row.related with
    | some (.many members) => rowsAt rest members
    | some (.one member) => rowsAt rest [member]
    | _ => []

/-- Changes the rows at the end of a relationship path. -/
def modifyAt (f : Row → Row) : List String → Row → Row
  | [], row => f row
  | name :: rest, row =>
    match Entries.get? name row.related with
    | some (.many members) => row.attach name (.many (members.map (modifyAt f rest)))
    | some (.one member) => row.attach name (.one (modifyAt f rest member))
    | _ => row

end Row

namespace ScopedFetch

/-- The identities of rows, each key once. -/
def parentsOf (r : Resource) (rows : List Row) : List Identity :=
  ((rows.filterMap fun row => r.identityOf? row.record).foldl (fun (seen, kept) i =>
    if i.key ∈ seen then (seen, kept) else (i.key :: seen, kept ++ [i])) ([], [])).2

/-- The rows found for a parent. -/
def membersOf (r : Resource) (found : List RelatedRows) (row : Row) : List Row :=
  match r.identityOf? row.record with
  | none => []
  | some i => ((found.find? (·.parent.key = i.key)).map (·.rows)).getD []

/-- Fetches the rows of an embed and attaches them to their parents. -/
def run (s : ScopedFetch) (t : Tables) (schema : Schema) (rows : List Row) :
    Except Error (List Row) := do
  let parent ← schema.require s.request.resource
  let above := s.path.dropLast
  let parents := parentsOf parent (Row.rowsAt above rows)
  let found ← if parents.isEmpty then .ok [] else
    t.fetchRelated schema { s.request with parents }
  pure (rows.map (Row.modifyAt (fun row =>
    row.attach s.request.relationship (.many (membersOf parent found row))) above))

end ScopedFetch

namespace Reading

variable (q : Reading) (t : Tables) (schema : Schema) (style : RenderStyle)

/-- The rows at the root with everything that is embedded. -/
def rows : Except Error (List Row) := do
  let rows ← t.fetch schema q.fetch
  q.scopedFetches.foldlM (fun rows s => s.run t schema rows) rows

/-- One page with the number of rows without the window. -/
def collection : Except Error Collection := do
  let rows ← q.rows t schema
  let available := (← t.count schema q.resource.name q.fetch.predicate).toUInt64
  pure {
    items := rows.map (Row.render schema style q.resource q.selection)
    available
    page := .ofWindow q.fetch.window available }

/-- The first row as an entity. -/
def first : Except Error (Option Json) := do
  let rows ← q.rows t schema
  pure (rows.head?.map (Row.render schema style q.resource q.selection))

end Reading

end NestedResources
