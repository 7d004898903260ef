import NestedResources.Json.Printer

/-!
# Filters

A filter is a boolean expression over dotted field paths. `and []` holds of everything, `or []` of
nothing, and `not` negates the conjunction of its children.
-/
namespace NestedResources

inductive Operator where
  | eq
  | ne
  | gt
  | gte
  | lt
  | lte
  | like
deriving DecidableEq

namespace Operator

def name : Operator → String
  | eq => "eq"
  | ne => "ne"
  | gt => "gt"
  | gte => "gte"
  | lt => "lt"
  | lte => "lte"
  | like => "like"

def all : List Operator := [eq, ne, gt, gte, lt, lte, like]

/-- The operator with a name, as it ends a query parameter. -/
def ofName? (s : String) : Option Operator := all.find? (·.name = s)

/-- The spelling in structured filters. -/
def token (o : Operator) : String := "$" ++ o.name

def ofToken? (s : String) : Option Operator := (Text.dropStart? "$" s).bind ofName?

@[simp] theorem ofName?_name (o : Operator) : ofName? o.name = some o := by
  cases o <;> decide

end Operator

/-- The condition `path operator value`. -/
structure Comparison where
  path : String
  operator : Operator
  value : Json

inductive Filter where
  | and (children : List Filter)
  | or (children : List Filter)
  | not (children : List Filter)
  | compare (comparison : Comparison)

namespace Filter

instance : Inhabited Filter := ⟨and []⟩

/-- Holds of everything. -/
def always : Filter := and []

/-- Holds of nothing. -/
def never : Filter := or []

def equal (path : String) (value : Json) : Filter := compare ⟨path, .eq, value⟩

/-- The conjunction of two optional filters. A conjunction on the left takes in the right one. -/
def conjoin : Option Filter → Option Filter → Option Filter
  | none, right => right
  | left, none => left
  | some (and items), some (and more) => some (and (items ++ more))
  | some (and items), some other => some (and (items ++ [other]))
  | some left, some right => some (and [left, right])

mutual

/-- The number of nodes. -/
def nodeCount : Filter → Nat
  | and children | or children | not children => nodeCountAll children + 1
  | compare _ => 1

def nodeCountAll : List Filter → Nat
  | [] => 0
  | f :: fs => nodeCount f + nodeCountAll fs

end

mutual

/-- The comparisons from left to right. -/
def leaves : Filter → List Comparison
  | and children | or children | not children => leavesAll children
  | compare c => [c]

def leavesAll : List Filter → List Comparison
  | [] => []
  | f :: fs => leaves f ++ leavesAll fs

end

mutual

/-- The structured form, in which a filter is written as a query parameter. -/
def toStructured : Filter → Json
  | and children => .obj [("$and", .arr (toStructuredAll children))]
  | or children => .obj [("$or", .arr (toStructuredAll children))]
  | not children => .obj [("$not", .arr (toStructuredAll children))]
  | compare c => .obj [(c.path, .obj [(c.operator.token, c.value)])]

def toStructuredAll : List Filter → List Json
  | [] => []
  | f :: fs => toStructured f :: toStructuredAll fs

end

/-- The text of the structured form. -/
def display (f : Filter) : String := f.toStructured.compact

mutual

/-- Equality of filters, values being compared as documents. -/
def same : Filter → Filter → Bool
  | and xs, and ys => sameAll xs ys
  | or xs, or ys => sameAll xs ys
  | not xs, not ys => sameAll xs ys
  | compare c, compare d => c.path == d.path && c.operator == d.operator && c.value.same d.value
  | _, _ => false

def sameAll : List Filter → List Filter → Bool
  | [], [] => true
  | x :: xs, y :: ys => same x y && sameAll xs ys
  | _, _ => false

end

mutual

/-- The tagged form, in which a filter is part of a document. -/
def toJson : Filter → Json
  | and children => .obj [("and", .arr (toJsonAll children))]
  | or children => .obj [("or", .arr (toJsonAll children))]
  | not children => .obj [("not", .arr (toJsonAll children))]
  | compare c => .obj [("compare",
      .obj [("operator", .str c.operator.name), ("path", .str c.path), ("value", c.value)])]

def toJsonAll : List Filter → List Json
  | [] => []
  | f :: fs => toJson f :: toJsonAll fs

end

/-- A comparison in tagged form. -/
def comparisonOfJson? (j : Json) : Option Comparison := do
  let path ← (← j.get? "path").string?
  let operator ← Operator.ofName? (← (← j.get? "operator").string?)
  let value ← j.get? "value"
  some ⟨path, operator, value⟩

mutual

/-- Reads the tagged form. -/
def ofJson? : Json → Option Filter
  | .obj [("and", .arr children)] => (ofJsonAll? children).map and
  | .obj [("or", .arr children)] => (ofJsonAll? children).map or
  | .obj [("not", .arr children)] => (ofJsonAll? children).map not
  | .obj [("compare", body)] => (comparisonOfJson? body).map compare
  | _ => none

def ofJsonAll? : List Json → Option (List Filter)
  | [] => some []
  | j :: js => match ofJson? j, ofJsonAll? js with
    | some f, some fs => some (f :: fs)
    | _, _ => none

end

end Filter

end NestedResources
