import NestedResources.Gate
import NestedResources.Schema.Path
import NestedResources.Store.Predicate

/-!
# Compiling filters

A filter becomes a predicate: paths are resolved, values coerced, and every relationship that is
crossed carries the filter its target requires. Required filters may cross relationships themselves;
each crossing and each filter takes one of `requiredDepth` steps.
-/
namespace NestedResources

/-- How deep required filters may nest inside each other. -/
def requiredDepth : Nat := 8

namespace Filter

/-- A comparison on a field. -/
def compileLeaf (field : Field) (c : Comparison) : Except Error Predicate :=
  match field.type.coerce c.value with
  | .error why => .error (.malformedQuery c.path (.uncoercible why))
  | .ok value =>
    if c.operator = .like && !value.isString then .error (.malformedQuery c.path .patternNotText)
    else .ok (.compare field.column field.type c.operator value)

/-- Puts a predicate behind the crossings that lead to its field, the last one innermost. Each
crossing adds the filter that its target requires. -/
def behind (schema : Schema) (required : Resource → Except Error (Option Predicate)) :
    List Hop → Predicate → Except Error Predicate
  | [], p => .ok p
  | hop :: hops, p => do
    let inner ← behind schema required hops p
    let target ← schema.require hop.relationship.target
    let filter ← required target
    .ok (.related hop.relationship.name hop.relationship.target
      ((Predicate.conjoin (some inner) filter).getD (.and [])))

mutual

/-- Compiles a filter on a resource, given what crossings require. -/
def compileWith (schema : Schema) (required : Resource → Except Error (Option Predicate))
    (resource : Resource) : Filter → Except Error Predicate
  | and children => (compileAll schema required resource children).map .and
  | or children => (compileAll schema required resource children).map .or
  | not children => (compileAll schema required resource children).map .not
  | compare c => do
    let path ← schema.fieldPath resource c.path
    let leaf ← compileLeaf path.field c
    behind schema required path.hops leaf

def compileAll (schema : Schema) (required : Resource → Except Error (Option Predicate))
    (resource : Resource) : List Filter → Except Error (List Predicate)
  | [] => .ok []
  | f :: fs => do
    let p ← compileWith schema required resource f
    let ps ← compileAll schema required resource fs
    .ok (p :: ps)

end

end Filter

namespace Registry

/-- The compiled filter that the gate of a resource requires, with `steps` steps left. -/
def requiredWithin (r : Registry) (ctx : Context) : Nat → Resource → Except Error (Option Predicate)
  | 0, _ => .error (.tooComplex requiredDepth)
  | steps + 1, resource =>
    match (r.gate resource.name).required resource ctx with
    | none => .ok none
    | some filter => do
      let resource ← r.schema.require resource.name
      let crossing := match steps with
        | 0 => fun _ => .error (.tooComplex requiredDepth)
        | left + 1 => r.requiredWithin ctx left
      (filter.compileWith r.schema crossing resource).map some

/-- The compiled filter that the gate of a resource requires. -/
def required (r : Registry) (ctx : Context) (resource : Resource) : Except Error (Option Predicate) :=
  r.requiredWithin ctx (requiredDepth + 1) resource

/-- Compiles a filter of a request. -/
def compile (r : Registry) (ctx : Context) (resource : Resource) (filter : Filter) :
    Except Error Predicate :=
  filter.compileWith r.schema (r.requiredWithin ctx requiredDepth) resource

/-- An optional filter of a request together with what the gate requires. -/
def restricted (r : Registry) (ctx : Context) (resource : Resource) (filter : Option Filter) :
    Except Error (Option Predicate) := do
  let explicit ← match filter with
    | none => .ok none
    | some f => (r.compile ctx resource f).map some
  let required ← r.required ctx resource
  .ok (Predicate.conjoin explicit required)

end Registry

end NestedResources
