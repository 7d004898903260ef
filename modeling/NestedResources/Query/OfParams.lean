import NestedResources.Filter.Structured
import NestedResources.Query.Basic
import NestedResources.Schema.Path

/-!
# Reading queries from parameters

`embeds`, `fields`, `query`, `sort`, `limit`, `offset` and `page` have their meaning; a key with a
marker such as `tracks._limit_` sets an option of an embed; every other key is a flat filter
`path` or `path-operator` if it starts at a field or relationship of the resource, and is ignored
otherwise.
-/
namespace NestedResources

/-- The bounds on what a query may ask for. -/
structure QueryLimits where
  filterNodes : Nat := 100
  /-- The page ceiling of resources that have none of their own. -/
  pageCeiling : Option UInt64 := none
deriving DecidableEq

/-- Where a query is read. -/
structure QuerySite where
  schema : Schema
  limits : QueryLimits

/-- An option of an embed. -/
inductive EmbedOption where
  | structuredFilter
  | flatFilter (key : String)
  | limit
  | offset
  | sorts
deriving DecidableEq

namespace EmbedOption

def markers : List String := ["_subquery_", "_subfilter_", "_limit_", "_offset_", "_sorts_"]

/-- The option that a marker with the segments behind it stands for. -/
def ofMarker (key marker : String) (rest : List String) : Except Error EmbedOption :=
  if marker = "_subquery_" ∨ marker = "_subfilter_" then
    .ok (if rest = [] then structuredFilter else flatFilter (Text.join "." rest))
  else if rest ≠ [] then .error (.malformedQuery key (.segmentsAfter marker))
  else .ok (if marker = "_limit_" then limit else if marker = "_offset_" then offset else sorts)

/-- The relationship path and the option of a key. None for a key without a marker, or with a
marker where a relationship would have to be named. -/
def ofKey? (key : String) : Except Error (Option (List String × EmbedOption)) :=
  let segments := Text.fields '.' key
  let path := segments.takeWhile fun s => s ∉ markers
  match segments.drop path.length with
  | [] => .ok none
  | marker :: rest =>
    if path = [] then .ok none
    else (ofMarker key marker rest).map fun o => some (path, o)

end EmbedOption

namespace Query

/-- The keys that are no flat filters. -/
def reserved : List String := ["embeds", "fields", "limit", "offset", "page", "query", "sort"]

end Query

namespace QuerySite

variable (site : QuerySite)

def ceilingOf (r : Resource) : Option UInt64 := r.pageCeiling.or site.limits.pageCeiling

/-- Checks that every comparison of a filter leads to a field. -/
def checkFilter (r : Resource) (f : Filter) : Except Error Unit :=
  f.leaves.forM fun c => do
    let _ ← site.schema.fieldPath r c.path

/-- A sort list on the fields of a resource. -/
def readSorts (r : Resource) (parameter raw : String) : Except Error (List SortKey) :=
  (SortKey.parseList raw).mapM fun s =>
    match r.field? s.field with
    | some field =>
      if field.isFilterable then .ok s
      else .error (.invalidField s.field (.notSortableIn s.field parameter))
    | none => .error (.invalidField s.field (.unknownField s.field r.name))

/-- The path and the operator of a flat key. -/
def splitKey (key : String) : String × Operator :=
  match Text.splitLast? '-' key with
  | some (path, suffix) => match Operator.ofName? suffix with
    | some operator => (path, operator)
    | none => (key, .eq)
  | none => (key, .eq)

/-- The filter that a flat key stands for; the values of a repeated key are alternatives. None if
the key does not start at the resource. -/
def flatFilter (r : Resource) (key : String) (values : List String) : Except Error (Option Filter) :=
  let (path, operator) := splitKey key
  let first := (Text.fields '.' path).headD ""
  if (r.field? first).isNone && (r.relationship? first).isNone then .ok none
  else do
    let _ ← site.schema.fieldPath r path
    match values.map fun value => Filter.compare ⟨path, operator, .str value⟩ with
    | [] => pure none
    | [only] => pure (some only)
    | several => pure (some (.or several))

/-- A filter in structured form on the fields of a resource. -/
def structuredFilter (r : Resource) (parameter raw : String) : Except Error Filter := do
  let f ← Filter.readStructured parameter site.limits.filterNodes raw
  site.checkFilter r f
  pure f

/-- The relationships that an embed entry names from `current` on, and the field it ends in. -/
def embedPath (entry : String) (current : Resource) (path : List String) :
    List String → Except Error (List String × Option Field)
  | [] => .ok (path, none)
  | segment :: rest =>
    match current.relationship? segment with
    | some rel => do embedPath entry (← site.schema.require rel.target) (path ++ [segment]) rest
    | none =>
      match current.field? segment with
      | none => .error (.invalidField entry (.unknownRelationship segment current.name))
      | some field =>
        if rest ≠ [] ∨ path = [] then .error (.invalidField entry (.notEmbeddable segment))
        else if field.isRendered then .ok (path, some field)
        else .error (.invalidField entry (.notSelectable segment))

/-- Adds an entry of `embeds`: a relationship path, or one that ends in a field. -/
def addEmbed (r : Resource) (embeds : Embeds) (entry : String) : Except Error Embeds := do
  let (path, field) ← site.embedPath entry r [] (Text.fields '.' entry)
  let embeds ← embeds.request path
  pure (match field with
    | some f => embeds.modify path fun e => { e with fields := e.fields ++ [f.name] }
    | none => embeds)

/-- The value of an option that takes one: the values given must all be the same. -/
def singleValue (key : String) (path : List String) : List String → Except Error String
  | [] => .error (.malformedQuery key .missingValue)
  | first :: rest =>
    if rest.all (· = first) then .ok first else .error (.duplicateEmbed (Text.join "." path))

/-- Refuses an option that only makes sense for several members. -/
def refuseToOne (key verb : String) (rel : Relationship) : Except Error Unit :=
  if rel.isMany then .ok () else .error (.malformedQuery key (.toOne verb))

/-- Reads the limit of an embed. -/
def readLimit (target : Resource) (key raw : String) : Except Error UInt64 :=
  match Window.positive? raw with
  | none => .error (.malformedQuery key (.notPositive "limit"))
  | some limit => match site.ceilingOf target with
    | some ceiling =>
      if ceiling < limit then .error (.malformedQuery key (.aboveCeiling limit ceiling)) else .ok limit
    | none => .ok limit

/-- What an option does to the embed it belongs to. -/
def readOption (rel : Relationship) (target : Resource) (key : String) (path values : List String) :
    EmbedOption → Except Error (Embed → Embed)
  | .flatFilter flat => do
    match ← site.flatFilter target flat values with
    | none => throw (.invalidField key (.unknownField flat target.name))
    | some f => pure fun e => { e with filter := Filter.conjoin e.filter (some f) }
  | .structuredFilter => do
    let f ← site.structuredFilter target key (← singleValue key path values)
    pure fun e => { e with filter := Filter.conjoin e.filter (some f) }
  | .limit => do
    let raw ← singleValue key path values
    refuseToOne key "limit" rel
    let limit ← site.readLimit target key raw
    pure fun e => { e with window := { e.window with limit := some limit } }
  | .offset => do
    let raw ← singleValue key path values
    refuseToOne key "offset" rel
    match Window.natural? raw with
    | none => throw (.malformedQuery key .notNatural)
    | some offset => pure fun e => { e with window := { e.window with offset } }
  | .sorts => do
    let raw ← singleValue key path values
    refuseToOne key "sort" rel
    match ← readSorts target key raw with
    | [] => throw (.malformedQuery key .emptySort)
    | sorts => pure fun e => { e with sorts }

/-- Sets an option of the embed at a path, which is embedded if it is not yet. -/
def setOption (r : Resource) (embeds : Embeds) (key : String) (path values : List String)
    (option : EmbedOption) : Except Error Embeds := do
  let (hops, target) ← site.schema.cross key r path
  match hops.getLast? with
  | none => throw (.malformedQuery key .noRelationship)
  | some hop =>
    let change ← site.readOption hop.relationship target key path values option
    pure ((embeds.ensure path).modify path change)

/-- Takes in the keys that are options of embeds or flat filters. -/
def readKeys (r : Resource) (params : Params) :
    List String → Embeds → Except Error (Embeds × List Filter)
  | [], embeds => .ok (embeds, [])
  | key :: keys, embeds =>
    if key ∈ Query.reserved then readKeys r params keys embeds
    else do
      match ← EmbedOption.ofKey? key with
      | some (path, option) =>
        readKeys r params keys (← site.setOption r embeds key path (params.all key) option)
      | none =>
        let filter ← site.flatFilter r key (params.all key)
        let (embeds, filters) ← readKeys r params keys embeds
        pure (embeds, filter.toList ++ filters)

/-- Adds an entry of `fields`: a field, or a field of an embed. -/
def addField (r : Resource) (q : Query) (entry : String) : Except Error Query := do
  let segments := Text.fields '.' entry
  let name := segments.getLastD ""
  let path := segments.dropLast
  let (_, target) ← site.schema.cross entry r path
  if path ≠ [] ∧ !q.embeds.contains path then
    throw (.invalidField entry (.notEmbedded (Text.join "." path)))
  match target.field? name with
  | none => throw (.invalidField entry (.unknownField name target.name))
  | some field =>
    if field.writeOnly then throw (.invalidField entry (.writeOnly name))
    let select (fields : List String) := if field.name ∈ fields then fields else fields ++ [field.name]
    pure (if path = [] then { q with fields := select q.fields }
      else { q with embeds := q.embeds.modify path fun e => { e with fields := select e.fields } })

/-- The filter of the flat keys together with those of `query`, within the node limit. -/
def readFilter (r : Resource) (flat : List Filter) (raws : List String) :
    Except Error (Option Filter) := do
  let start := match flat with
    | [] => none
    | [only] => some only
    | several => some (.and several)
  let filter ← raws.foldlM (fun filter raw => do
    pure (Filter.conjoin filter (some (← site.structuredFilter r "query" raw)))) start
  if (filter.map Filter.nodeCount).getD 0 > site.limits.filterNodes then
    throw (.tooComplex site.limits.filterNodes)
  pure filter

/-- Reads a query on a resource. -/
def read (r : Resource) (params : Params) : Except Error Query := do
  let window ← Window.ofParams params (site.ceilingOf r)
  let embeds ← ((params.all "embeds").flatMap Text.commaList).foldlM (site.addEmbed r) .empty
  let (embeds, flat) ← site.readKeys r params params.keys embeds
  let filter ← site.readFilter r flat (params.all "query")
  let q : Query := { filter, embeds, window }
  let q ← ((params.all "fields").flatMap Text.commaList).foldlM (site.addField r) q
  match params.first? "sort" with
  | none => pure q
  | some raw => pure { q with sorts := ← readSorts r "sort" raw }

end QuerySite

end NestedResources
