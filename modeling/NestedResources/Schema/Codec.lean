import NestedResources.Schema.Basic

/-!
# Resources as documents

`Resource.toJson` writes a resource with its members in the order of their declaration, and leaves
out what has no value. `Resource.ofJson?` reads it back; members that are left out have their
default, and unknown members are ignored.
-/
namespace NestedResources

namespace Json

/-- A member of an object that may be left out. -/
def memberOr? {α : Type} (j : Json) (key : String) (default : α) (read : Json → Option α) : Option α :=
  match j.get? key with
  | none => some default
  | some value => read value

/-- A member that may be left out or null. -/
def optional? {α : Type} (j : Json) (key : String) (read : Json → Option α) : Option (Option α) :=
  match j.get? key with
  | none => some none
  | some .null => some none
  | some value => (read value).map some

def boolOr? (j : Json) (key : String) (default : Bool) : Option Bool := j.memberOr? key default bool?

/-- A whole number below `2 ^ 64`. -/
def word? : Json → Option UInt64
  | num (.int n) => if 0 ≤ n ∧ n < 0x10000000000000000 then some n.toNat.toUInt64 else none
  | _ => none

/-- Every item as `read` reads it. -/
def list? {α : Type} (read : Json → Option α) (j : Json) : Option (List α) :=
  j.array?.bind fun items => items.mapM read

def stringAt? (j : Json) (key : String) : Option String := (j.get? key).bind string?

def stringsAt? (j : Json) (key : String) : Option (List String) := (j.get? key).bind (list? string?)

/-- The double nearest to a number. -/
def binary64? : Json → Option Binary64
  | num n => n.toBinary64?
  | _ => none

end Json

namespace Rule

def toJson : Rule → Json
  | length least greatest =>
    .obj [("rule", .str "length"), ("min", .ofOption Json.nat least), ("max", .ofOption Json.nat greatest)]
  | range least greatest =>
    .obj [("rule", .str "range"), ("min", .ofOption (fun x => .num (.float x)) least),
      ("max", .ofOption (fun x => .num (.float x)) greatest)]
  | pattern source => .obj [("rule", .str "regex"), ("pattern", .str source)]
  | choice allowed ignoresCase =>
    .obj [("rule", .str "enum"), ("allowed", .strings allowed), ("case_insensitive", .bool ignoresCase)]
  | email => .obj [("rule", .str "email")]
  | url => .obj [("rule", .str "url")]
  | uuid => .obj [("rule", .str "uuid")]

def ofJson? (j : Json) : Option Rule := do
  match ← j.stringAt? "rule" with
  | "length" =>
    let least ← j.optional? "min" Json.word?
    let greatest ← j.optional? "max" Json.word?
    some (length (least.map UInt64.toNat) (greatest.map UInt64.toNat))
  | "range" => some (range (← j.optional? "min" Json.binary64?) (← j.optional? "max" Json.binary64?))
  | "regex" => some (pattern (← j.stringAt? "pattern"))
  | "enum" => some (choice (← j.stringsAt? "allowed") (← j.boolOr? "case_insensitive" false))
  | "email" => some email
  | "url" => some url
  | "uuid" => some uuid
  | _ => none

end Rule

namespace Field

def toJson (f : Field) : Json :=
  .obj ([("name", .str f.name)]
    ++ (f.storedAs.map fun c => ("data_key", Json.str c)).toList
    ++ [("field_type", .str f.type.name), ("read_only", .bool f.readOnly),
      ("write_only", .bool f.writeOnly), ("queryable", .bool f.queryable), ("hidden", .bool f.hidden),
      ("optional", .bool f.optional), ("generated", .bool f.generated)]
    ++ (if f.rules = [] then [] else [("validations", .arr (f.rules.map Rule.toJson))]))

def ofJson? (j : Json) : Option Field := do
  some {
    name := ← j.stringAt? "name"
    storedAs := ← j.optional? "data_key" Json.string?
    type := ← j.memberOr? "field_type" .string fun v => v.string?.bind FieldType.ofName?
    readOnly := ← j.boolOr? "read_only" false
    writeOnly := ← j.boolOr? "write_only" false
    queryable := ← j.boolOr? "queryable" true
    hidden := ← j.boolOr? "hidden" false
    optional := ← j.boolOr? "optional" false
    generated := ← j.boolOr? "generated" false
    rules := ← j.memberOr? "validations" [] (Json.list? Rule.ofJson?) }

end Field

namespace Cardinality

def name : Cardinality → String
  | manyToOne => "many_to_one"
  | oneToOne => "one_to_one"
  | oneToMany => "one_to_many"
  | manyToMany => "many_to_many"

def ofName? (s : String) : Option Cardinality :=
  [manyToOne, oneToOne, oneToMany, manyToMany].find? (·.name = s)

end Cardinality

namespace Join

def toJson : Join → Json
  | foreignKey own referenced =>
    .obj [("kind", .str "foreign_key"), ("local", .strings own), ("remote", .strings referenced)]
  | reverse own held =>
    .obj [("kind", .str "reverse"), ("local", .strings own), ("remote", .strings held)]
  | association table own other =>
    .obj [("kind", .str "association"), ("table", .str table), ("local", .str own), ("remote", .str other)]

def ofJson? (j : Json) : Option Join := do
  match ← j.stringAt? "kind" with
  | "foreign_key" => some (foreignKey (← j.stringsAt? "local") (← j.stringsAt? "remote"))
  | "reverse" => some (reverse (← j.stringsAt? "local") (← j.stringsAt? "remote"))
  | "association" =>
    some (association (← j.stringAt? "table") (← j.stringAt? "local") (← j.stringAt? "remote"))
  | _ => none

end Join

namespace Cascade

def name : Cascade → String
  | delete => "delete"
  | detach => "detach"

def ofName? (s : String) : Option Cascade := [delete, detach].find? (·.name = s)

end Cascade

namespace Relationship

def toJson (r : Relationship) : Json :=
  .obj ([("name", .str r.name), ("target", .str r.target), ("cardinality", .str r.cardinality.name),
      ("join", r.join.toJson)]
    ++ (r.inverse.map fun i => ("back_populates", Json.str i)).toList
    ++ [("cascade", .str r.cascade.name), ("read_only", .bool r.readOnly)])

def ofJson? (j : Json) : Option Relationship := do
  some {
    name := ← j.stringAt? "name"
    target := ← j.stringAt? "target"
    cardinality := ← (← j.stringAt? "cardinality") |> Cardinality.ofName?
    join := ← (← j.get? "join") |> Join.ofJson?
    inverse := ← j.optional? "back_populates" Json.string?
    cascade := ← j.memberOr? "cascade" .detach fun v => v.string?.bind Cascade.ofName?
    readOnly := ← j.boolOr? "read_only" false }

end Relationship

namespace Resource

def toJson (r : Resource) : Json :=
  .obj ([("name", .str r.name), ("identity", .strings r.identity),
      ("fields", .arr (r.fields.map Field.toJson)),
      ("relationships", .arr (r.relationships.map Relationship.toJson))]
    ++ (r.pageCeiling.map fun n => ("page_max_size", Json.nat n.toNat)).toList)

def ofJson? (j : Json) : Option Resource := do
  some {
    name := ← j.stringAt? "name"
    identity := ← j.stringsAt? "identity"
    fields := ← j.memberOr? "fields" [] (Json.list? Field.ofJson?)
    relationships := ← j.memberOr? "relationships" [] (Json.list? Relationship.ofJson?)
    pageCeiling := ← j.optional? "page_max_size" Json.word? }

end Resource

end NestedResources
