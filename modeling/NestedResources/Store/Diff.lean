import NestedResources.Store.Keys
import NestedResources.Store.Tables

/-!
# Differences between tables

The writes that turn the hashes of one state into those of another. A row is a field of the hash of
its resource; a link is a field of the hash of its association table.
-/
namespace NestedResources

/-- One write to a hash. -/
inductive HashWrite where
  | set (key field value : String)
  | drop (key field : String)
deriving DecidableEq

def HashWrite.toJson : HashWrite → Json
  | set key field value => .object [("op", .str "hset"), ("key", .str key), ("field", .str field),
      ("value", .str value)]
  | drop key field => .object [("op", .str "hdel"), ("key", .str key), ("field", .str field)]

/-- The text of a link: an object of keys. -/
def Link.text (l : Link) : String := (Json.ofDict (l.map Json.str)).compact

namespace Tables

/-- Whether a row is filed under a key, the same as given. -/
def hasRow (t : Tables) (resource key : String) (record : Record) : Bool :=
  (t.rowAt? resource key).any (·.same record)

/-- The rows of `after` that `before` lacks or has otherwise. -/
def rowSets (keys : KeySpace) (before after : Tables) : List HashWrite :=
  after.rows.entries.flatMap fun (resource, rows) =>
    (rows.entries.filter fun e => !before.hasRow resource e.1 e.2).map fun (key, record) =>
      .set (keys.resource resource) key (Json.ofDict record).compact

/-- The rows of `before` that `after` lacks. -/
def rowDrops (keys : KeySpace) (before after : Tables) : List HashWrite :=
  before.rows.entries.flatMap fun (resource, rows) =>
    (rows.keys.filter fun key => (after.rowAt? resource key).isNone).map fun key =>
      .drop (keys.resource resource) key

def linkSets (keys : KeySpace) (before after : Tables) : List HashWrite :=
  after.links.entries.flatMap fun (name, links) =>
    (links.links.filter fun l => !(before.linksOf name).contains l).map fun l =>
      .set (keys.association name) l.text "1"

def linkDrops (keys : KeySpace) (before after : Tables) : List HashWrite :=
  before.links.entries.flatMap fun (name, links) =>
    (links.links.filter fun l => !(after.linksOf name).contains l).map fun l =>
      .drop (keys.association name) l.text

/-- The writes that turn `before` into `after`. -/
def diff (keys : KeySpace) (before after : Tables) : List HashWrite :=
  rowSets keys before after ++ rowDrops keys before after ++ linkSets keys before after
    ++ linkDrops keys before after

def toJson (t : Tables) : Json :=
  .object [("rows", .ofDict (t.rows.map fun rows => .ofDict (rows.map Json.ofDict))),
    ("links", .ofDict (t.links.map fun links =>
      .arr (links.links.map fun l => .ofDict (l.map Json.str))))]

end Tables

end NestedResources
