import NestedResources.Json.Basic
import NestedResources.Timestamp

/-!
# Field types and coercion

`FieldType.coerce` brings an input value into the canonical form of a type. Text is accepted for
every scalar type, so that path segments and query parameters are coerced like document values.
-/
namespace NestedResources

inductive FieldType where
  | string
  | integer
  | number
  | boolean
  | dateTime
  | json
deriving DecidableEq, Inhabited

/-- Why a value does not belong to a type. -/
inductive CoercionFault where
  | wrongKind (expected : FieldType)
  | unreadable (text : String) (expected : FieldType)
deriving DecidableEq

namespace FieldType

def name : FieldType → String
  | string => "string"
  | integer => "integer"
  | number => "number"
  | boolean => "boolean"
  | dateTime => "date_time"
  | json => "json"

def all : List FieldType := [string, integer, number, boolean, dateTime, json]

def ofName? (s : String) : Option FieldType := all.find? (·.name = s)

/-- The type as messages call a value of it. -/
def described : FieldType → String
  | string => "a string"
  | integer => "an integer"
  | number => "a number"
  | boolean => "a boolean"
  | dateTime => "a datetime string"
  | json => "a document"

/-- The type as messages call a text that spells a value of it. -/
def spelled : FieldType → String
  | dateTime => "an RFC 3339 datetime"
  | type => type.described

end FieldType

def CoercionFault.message : CoercionFault → String
  | wrongKind expected => "expected " ++ expected.described
  | unreadable text expected => Text.ticked text ++ " is not " ++ expected.spelled

/-- The integer a number denotes within 64 bits, if it has no fraction. -/
def Number.toInteger? : Number → Option Int
  | .int n => if -0x8000000000000000 ≤ n ∧ n < 0x8000000000000000 then some n else none
  | .float x => match x.toInt? with
    | some n => if n.natAbs < 0x8000000000000000 then some n else none
    | none => none

/-- The double nearest to the number that a text spells. -/
def Number.ofText? (s : String) : Option Number :=
  match RealNumeral.ofText? s with
  | some (.finite d) => (Binary64.ofDecimal? d).map .float
  | _ => none

/-- The truth value that a text spells, in any case. -/
def boolOfText? (s : String) : Option Bool :=
  match Text.asciiLower s with
  | "true" => some true
  | "1" => some true
  | "false" => some false
  | "0" => some false
  | _ => none

/-- The canonical form of a value. Null belongs to every type. -/
def FieldType.coerce (type : FieldType) (value : Json) : Except CoercionFault Json :=
  let reading {α : Type} (text : String) (wrap : α → Json) (found : Option α) :=
    match found with
    | some a => Except.ok (wrap a)
    | none => .error (.unreadable text type)
  match type, value with
  | _, .null => .ok .null
  | .json, value => .ok value
  | .string, .str s => .ok (.str s)
  | .integer, .num n => match n.toInteger? with
    | some i => .ok (.int i)
    | none => .error (.wrongKind .integer)
  | .integer, .str s => reading s .int (Numeral.signed64? (Text.trim s))
  | .number, .num n => .ok (.num n)
  | .number, .str s => reading s .num (Number.ofText? (Text.trim s))
  | .boolean, .bool b => .ok (.bool b)
  | .boolean, .str s => reading s .bool (boolOfText? (Text.trim s))
  | .dateTime, .str s => reading s (fun t => .str t.text) (Timestamp.ofText? s)
  | type, _ => .error (.wrongKind type)

@[simp] theorem FieldType.coerce_null (type : FieldType) : type.coerce .null = .ok .null := by
  cases type <;> rfl

end NestedResources
