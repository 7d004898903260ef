import NestedResources.Error
import NestedResources.Filter.Basic
import NestedResources.Query.Sort
import NestedResources.Query.Window

/-!
# Embeds

The relationship paths that a result includes, each with its own selection, filter, sorts and
window. `Embeds.request` and `Embeds.ensure` keep every path single and every path's prefixes present.
-/
namespace NestedResources

/-- One included relationship. -/
structure Embed where
  /-- Relationship names from the root. -/
  path : List String
  /-- Asked for itself, not only implied by a deeper path or by one of its options. -/
  explicit : Bool := false
  /-- The fields to render; none stands for all. -/
  fields : List String := []
  filter : Option Filter := none
  sorts : List SortKey := []
  window : Window := .unbounded

namespace Embed

def dotted (e : Embed) : String := Text.join "." e.path

def depth (e : Embed) : Nat := e.path.length

/-- Sorted or windowed for each parent, so that it takes a fetch of its own. -/
def isScoped (e : Embed) : Bool := !e.sorts.isEmpty || !e.window.isUnbounded

def toJson (e : Embed) : Json :=
  .object [("path", .strings e.path), ("explicit", .bool e.explicit), ("fields", .strings e.fields),
    ("filter", .ofOption Filter.toJson e.filter), ("sorts", .arr (e.sorts.map SortKey.toJson)),
    ("pagination", e.window.toJson)]

end Embed

/-- Embeds in the order in which they were added. -/
structure Embeds where
  list : List Embed := []

namespace Embeds

def empty : Embeds := {}

instance : Inhabited Embeds := ⟨empty⟩

def get? (es : Embeds) (path : List String) : Option Embed := es.list.find? (·.path = path)

def contains (es : Embeds) (path : List String) : Bool := es.list.any (·.path = path)

/-- Appends an embed without looking for another one of its path. -/
def push (es : Embeds) (e : Embed) : Embeds := ⟨es.list ++ [e]⟩

/-- Appends an implied embed, unless the path is embedded already. -/
def imply (es : Embeds) (path : List String) : Embeds :=
  if es.contains path then es else es.push { path }

/-- The proper prefixes of a path from short to long, without the root. -/
def parents (path : List String) : List (List String) :=
  (List.range (path.length - 1)).map fun n => path.take (n + 1)

/-- Embeds a path and its prefixes where they are not embedded yet. -/
def ensure (es : Embeds) (path : List String) : Embeds := (parents path ++ [path]).foldl imply es

/-- Changes the first embed in a list that has a path. -/
def modifyFirst (path : List String) (f : Embed → Embed) : List Embed → List Embed
  | [] => []
  | e :: rest => if e.path = path then f e :: rest else e :: modifyFirst path f rest

/-- Changes the embed of a path. -/
def modify (es : Embeds) (path : List String) (f : Embed → Embed) : Embeds :=
  ⟨modifyFirst path f es.list⟩

/-- Asks for a path, which must not have been asked for before. -/
def request (es : Embeds) (path : List String) : Except Error Embeds :=
  if (es.get? path).any (·.explicit) then .error (.duplicateEmbed (Text.join "." path))
  else .ok ((es.ensure path).modify path fun e => { e with explicit := true })

/-- The embeds exactly one level below a path. -/
def childrenOf (es : Embeds) (parent : List String) : List Embed :=
  es.list.filter fun e => e.path.length = parent.length + 1 && parent.isPrefixOf e.path

/-- The first embed that is empty or repeats one of the paths seen. -/
def fault? (seen : List (List String)) : List Embed → Option Error
  | [] => none
  | e :: rest =>
    if e.path = [] then some (.invalidField "embeds" .emptyEmbed)
    else if e.path ∈ seen then some (.duplicateEmbed e.dotted)
    else fault? (e.path :: seen) rest

/-- Refuses empty and repeated paths, and adds the prefixes that are missing. -/
def validate (es : Embeds) : Except Error Embeds :=
  match fault? [] es.list with
  | some e => .error e
  | none => .ok ((es.list.map Embed.path).foldl ensure es)

def toJson (es : Embeds) : Json := .obj [("embeds", .arr (es.list.map Embed.toJson))]

end Embeds

end NestedResources
