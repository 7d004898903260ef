import NestedResources.Query.Basic
import NestedResources.Schema.Schema
import NestedResources.Store.Fetch

/-!
# Rendering

A selection says which fields and embedded relationships of a row are rendered. Write-only and
hidden fields never are. With links, an entity carries its own URL and those of the relationships
that are not embedded.
-/
namespace NestedResources

inductive Selection where
  /-- No fields stands for all of them. -/
  | mk (fields : List String) (children : List (String × Selection))

namespace Selection

instance : Inhabited Selection := ⟨mk [] []⟩

def fields : Selection → List String
  | mk fields _ => fields

def child? (s : Selection) (relationship : String) : Option Selection :=
  match s with
  | mk _ children => Entries.get? relationship children

/-- Whether a field is rendered. -/
def includes (s : Selection) (f : Field) : Bool :=
  f.isRendered && (s.fields.isEmpty || f.name ∈ s.fields)

/-- The selection of the embeds below a path, down to `levels` levels. -/
def ofEmbeds (embeds : Embeds) : Nat → List String → List String → Selection
  | 0, fields, _ => mk fields []
  | levels + 1, fields, path =>
    mk fields (Entries.ofList ((embeds.childrenOf path).map fun e =>
      (e.path.getLastD "", ofEmbeds embeds levels e.fields e.path)))

end Selection

/-- The length of the longest path. -/
def Embeds.height (es : Embeds) : Nat := es.list.foldl (fun n e => max n e.depth) 0

/-- What a query renders. -/
def Selection.ofQuery (fields : List String) (embeds : Embeds) : Selection :=
  ofEmbeds embeds embeds.height fields []

/-- How entities are rendered. -/
structure RenderStyle where
  /-- Whether entities carry URLs. -/
  links : Bool := false
  /-- Stands before every URL. -/
  urlStart : String := ""
deriving DecidableEq

namespace RenderStyle

def entityUrl (s : RenderStyle) (resource : String) (i : Identity) : String :=
  Text.dropEnd '/' s.urlStart ++ "/" ++ resource ++ "/" ++ i.key

def relationshipUrl (s : RenderStyle) (resource : String) (i : Identity) (relationship : String) :
    String :=
  s.entityUrl resource i ++ "/" ++ relationship

end RenderStyle

namespace Resource

/-- The relationship by which embedded members are rendered. -/
def renderedRelationship? (r : Resource) (name : String) : Option Relationship :=
  r.relationships.reverse.find? (·.name = name)

/-- The rendered fields of a row. -/
def renderFields (r : Resource) (selection : Selection) (record : Record) : List (String × Json) :=
  (r.fields.filter selection.includes).map fun (f : Field) =>
    (f.name, (record.get? f.column).getD .null)

/-- What stands for a relationship: its rendered members, or its URL, or nothing. -/
def renderRelationship (style : RenderStyle) (r : Resource) (identity : Option Identity)
    (selection : Selection) (rendered : List (String × Json)) (rel : Relationship) :
    Option (String × Json) :=
  match selection.child? rel.name with
  | some _ =>
    some (rel.name, (Entries.get? rel.name rendered).getD (if rel.isMany then .arr [] else .null))
  | none =>
    if style.links then identity.map fun i => (rel.name, .str (style.relationshipUrl r.name i rel.name))
    else none

/-- An entity from its rendered members. -/
def renderEntity (style : RenderStyle) (r : Resource) (selection : Selection) (record : Record)
    (rendered : List (String × Json)) : Json :=
  let identity := r.identityOf? record
  let own := if style.links then
      (identity.map fun i => ("self", Json.str (style.entityUrl r.name i))).toList
    else []
  .object (r.renderFields selection record ++ own
    ++ r.relationships.filterMap (renderRelationship style r identity selection rendered))

end Resource

namespace Row

mutual

/-- A row of `r` as an entity. -/
def render (schema : Schema) (style : RenderStyle) (r : Resource) (selection : Selection) :
    Row → Json
  | mk record related =>
    r.renderEntity style selection record (renderRelated schema style r selection related)

/-- The embedded relationships that are selected. -/
def renderRelated (schema : Schema) (style : RenderStyle) (r : Resource) (selection : Selection) :
    List (String × Related) → List (String × Json)
  | [] => []
  | (name, members) :: rest =>
    let others := renderRelated schema style r selection rest
    match r.renderedRelationship? name, selection.child? name with
    | some rel, some child =>
      match schema.target? rel, members with
      | none, _ => others
      | some target, .one member => (name, render schema style target child member) :: others
      | some target, .many list => (name, .arr (renderAll schema style target child list)) :: others
      | some _, .absent => others
    | _, _ => others

def renderAll (schema : Schema) (style : RenderStyle) (r : Resource) (selection : Selection) :
    List Row → List Json
  | [] => []
  | row :: rows => render schema style r selection row :: renderAll schema style r selection rows

end

end Row

end NestedResources
