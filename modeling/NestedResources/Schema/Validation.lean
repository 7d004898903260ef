import NestedResources.Error
import NestedResources.Format.Email
import NestedResources.Format.Url
import NestedResources.Format.Uuid
import NestedResources.Number.Shortest
import NestedResources.Pattern.Parser
import NestedResources.Text.Escaped

/-!
# Checking values of fields

A value is coerced to the type of its field, and then every rule is tried on it. Null passes only
where the field is optional. A rule that does not apply to the kind of value at hand is kept.
-/
namespace NestedResources

/-- A quantity that a rule bounds. -/
inductive Quantity where
  | finite (value : Binary64)
  | infinite (negative : Bool)
  /-- Neither below nor above anything. -/
  | undefined

namespace Quantity

def below : Quantity → Binary64 → Bool
  | finite x, bound => x.compare bound = .lt
  | infinite negative, _ => negative
  | undefined, _ => false

def above : Quantity → Binary64 → Bool
  | finite x, bound => x.compare bound = .gt
  | infinite negative, _ => !negative
  | undefined, _ => false

/-- A count, which is infinite if it is beyond the doubles. -/
def ofNat (n : Nat) : Quantity :=
  match Binary64.ofInt? n with
  | some x => finite x
  | none => infinite false

/-- The quantity that a text spells. A numeral beyond the doubles is infinite. -/
def ofText? (s : String) : Option Quantity :=
  (RealNumeral.ofText? s).map fun
    | .finite d => match Binary64.ofDecimal? d with
      | some x => finite x
      | none => infinite d.negative
    | .infinite negative => infinite negative
    | .notANumber => undefined

/-- The quantity that a value denotes, if it is a number or a text that spells one. -/
def ofJson? : Json → Option Quantity
  | .num n => n.toBinary64?.map finite
  | .str s => ofText? s
  | _ => none

end Quantity

/-- Why a value breaks a rule. -/
inductive Violation where
  | tooShort (least : Binary64)
  | tooLong (greatest : Binary64)
  | tooSmall (least : Binary64)
  | tooGreat (greatest : Binary64)
  | noPattern (source : String)
  | noMatch (source : String)
  | notAllowed (allowed : List String)
  | notEmail
  | notUrl
  | notUuid
deriving DecidableEq

namespace Violation

def code : Violation → String
  | tooShort _ | tooLong _ => "validation.length"
  | tooSmall _ | tooGreat _ => "validation.range"
  | noPattern _ | noMatch _ => "validation.regex"
  | notAllowed _ => "validation.enum"
  | notEmail => "validation.email"
  | notUrl => "validation.url"
  | notUuid => "validation.uuid"

/-- A bound as it is written in messages: all its digits, without an exponent. -/
def boundText (x : Binary64) : String := x.render .plain

def message : Violation → String
  | tooShort least => "length must be at least " ++ boundText least
  | tooLong greatest => "length must be at most " ++ boundText greatest
  | tooSmall least => "value must be at least " ++ boundText least
  | tooGreat greatest => "value must be at most " ++ boundText greatest
  | noPattern source => "pattern " ++ source ++ " is not a valid regular expression"
  | noMatch source => "value does not match pattern " ++ source
  | notAllowed allowed => "value must be one of " ++ Text.quotedList allowed
  | notEmail => "value must be a valid email address"
  | notUrl => "value must be a valid URL"
  | notUuid => "value must be a valid UUID"

end Violation

namespace Rule

/-- The violations of two bounds. -/
def boundViolations (below above : Binary64 → Violation) (q : Quantity)
    (least greatest : Option Binary64) : List Violation :=
  ((least.filter q.below).map below).toList ++ ((greatest.filter q.above).map above).toList

/-- The length of a value: characters of a text, items of an array in a JSON field. -/
def lengthOf? : FieldType → Json → Option Nat
  | .string, .str s | .dateTime, .str s | .json, .str s => some s.length
  | .json, .arr items => some items.length
  | _, _ => none

/-- The violation of a test on texts. -/
def textViolation (test : String → Bool) (v : Violation) : Json → List Violation
  | .str s => if test s then [] else [v]
  | _ => []

/-- Whether a text is allowed, up to the case of ASCII letters if case is ignored. -/
def allows (allowed : List String) (ignoresCase : Bool) (s : String) : Bool :=
  if ignoresCase then allowed.any fun a => Text.asciiLower a = Text.asciiLower s else s ∈ allowed

/-- How a value of a field of the given type breaks a rule. -/
def violations (type : FieldType) (value : Json) : Rule → List Violation
  | length least greatest =>
    match lengthOf? type value with
    | none => []
    | some n => boundViolations .tooShort .tooLong (.ofNat n)
        (least.bind fun (k : Nat) => Binary64.ofInt? k) (greatest.bind fun (k : Nat) => Binary64.ofInt? k)
  | range least greatest =>
    match Quantity.ofJson? value with
    | none => []
    | some q => boundViolations .tooSmall .tooGreat q least greatest
  | pattern source =>
    match value with
    | .str s => match Pattern.parse? source with
      | none => [.noPattern source]
      | some p => if p.occursIn s then [] else [.noMatch source]
    | _ => []
  | choice allowed ignoresCase => textViolation (allows allowed ignoresCase) (.notAllowed allowed) value
  | email => textViolation Email.isValid .notEmail value
  | url => textViolation Url.isAbsolute .notUrl value
  | uuid => textViolation Uuid.isValid .notUuid value

end Rule

namespace Field

/-- The coerced value of a field, or what is wrong with it, reported at a path. -/
def check (f : Field) (path : String) (raw : Json) : Except (List Issue) Json :=
  if raw.isNull then
    if f.optional then .ok .null else .error [Defect.valueNull.issueAt path]
  else
    match f.type.coerce raw with
    | .error why => .error [(Defect.invalidType why).issueAt path]
    | .ok value =>
      match f.rules.flatMap (Rule.violations f.type value) with
      | [] => .ok value
      | found => .error (found.map fun v => ⟨path, v.code, v.message⟩)

end Field

end NestedResources
