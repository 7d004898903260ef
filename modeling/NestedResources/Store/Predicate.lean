import NestedResources.Filter.Compare
import NestedResources.Schema.Basic

/-!
# Predicates

A predicate is a filter in terms of the store: columns instead of paths, and values that have been
coerced. `Predicate.all` flattens conjunctions.
-/
namespace NestedResources

inductive Predicate where
  | and (children : List Predicate)
  | or (children : List Predicate)
  /-- Negates the conjunction of the children. -/
  | not (children : List Predicate)
  | compare (column : String) (type : FieldType) (operator : Operator) (value : Json)
  /-- Some member of a relationship, a row of `target`, satisfies `inner`. -/
  | related (relationship target : String) (inner : Predicate)
  /-- The row is a member of a relationship of the given entity. -/
  | memberOf (resource : String) (identity : Identity) (relationship : String)

namespace Predicate

instance : Inhabited Predicate := ⟨and []⟩

/-- The parts of a conjunction; any other predicate is its only part. -/
def conjuncts : Predicate → List Predicate
  | and children => children
  | p => [p]

/-- The conjunction of predicates, without conjunctions directly inside it. -/
def all (parts : List Predicate) : Predicate :=
  match parts.flatMap conjuncts with
  | [only] => only
  | several => and several

/-- The conjunction of two optional predicates. -/
def conjoin : Option Predicate → Option Predicate → Option Predicate
  | none, right => right
  | left, none => left
  | some left, some right => some (all [left, right])

/-- Equality on every identity column. -/
def identity (r : Resource) (i : Identity) : Predicate :=
  and ((r.identityFields.zip i.values).map fun (f, value) => compare f.column f.type .eq value)

mutual

def toJson : Predicate → Json
  | and children => .obj [("and", .arr (toJsonAll children))]
  | or children => .obj [("or", .arr (toJsonAll children))]
  | not children => .obj [("not", .arr (toJsonAll children))]
  | compare column type operator value =>
    .object [("compare", .object [("key", .str column), ("type", .str type.name),
      ("operator", .str operator.name), ("value", value),
      ("pattern", .bool (operator = .like && value.isString))])]
  | related relationship target inner =>
    .object [("related", .object [("relationship", .str relationship), ("target", .str target),
      ("predicate", toJson inner)])]
  | memberOf resource identity relationship =>
    .object [("member_of", .object [("resource", .str resource), ("identity", identity.toJson),
      ("relationship", .str relationship)])]

def toJsonAll : List Predicate → List Json
  | [] => []
  | p :: ps => toJson p :: toJsonAll ps

end

def comparisonOfJson? (j : Json) : Option Predicate := do
  let column ← (← j.get? "key").string?
  let type ← FieldType.ofName? (← (← j.get? "type").string?)
  let operator ← Operator.ofName? (← (← j.get? "operator").string?)
  some (compare column type operator (j.getD "value"))

def membershipOfJson? (j : Json) : Option Predicate := do
  let resource ← (← j.get? "resource").string?
  let relationship ← (← j.get? "relationship").string?
  some (memberOf resource (Identity.ofJson (j.getD "identity")) relationship)

mutual

/-- Reads the form that `toJson` writes, and `all` for a flattened conjunction. -/
def ofJson? : Json → Option Predicate
  | .obj [("and", .arr children)] => (ofJsonAll? children).map and
  | .obj [("or", .arr children)] => (ofJsonAll? children).map or
  | .obj [("not", .arr children)] => (ofJsonAll? children).map not
  | .obj [("all", .arr children)] => (ofJsonAll? children).map all
  | .obj [("compare", body)] => comparisonOfJson? body
  | .obj [("member_of", body)] => membershipOfJson? body
  | .obj [("related", .obj [("predicate", inner), ("relationship", .str relationship),
      ("target", .str target)])] => (ofJson? inner).map (related relationship target)
  | _ => none

def ofJsonAll? : List Json → Option (List Predicate)
  | [] => some []
  | j :: js => match ofJson? j, ofJsonAll? js with
    | some p, some ps => some (p :: ps)
    | _, _ => none

end

end Predicate

end NestedResources
