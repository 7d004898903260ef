import NestedResources.Method
import NestedResources.Schema.Basic

/-!
# Errors

Each error is a cause; its wording is `Error.message`, its class `Error.kind`, and the body it is
answered with `Error.body`. Faults of a document are collected as issues and reported together.
-/
namespace NestedResources

open Text (ticked)

/-- Why the value of a query parameter is refused. -/
inductive ParameterFault where
  | notPositive (parameter : String)
  | notNatural
  | aboveCeiling (limit ceiling : UInt64)
  | pageWithoutSize
  | invalidJson (why : String)
  | notAnObject
  | emptyObject
  | notAnArray (combinator : String)
  | notObjectOrArray
  | childNotAnObject (combinator : String)
  | unknownOperator (token : String)
  | mixedScope
  | notAScalar
  | unbalanced
  | uncoercible (why : CoercionFault)
  | patternNotText
  | noRelationship
  | missingValue
  | toOne (verb : String)
  | emptySort
  | segmentsAfter (marker : String)
deriving DecidableEq

def ParameterFault.message : ParameterFault → String
  | notPositive parameter => parameter ++ " must be a positive integer"
  | notNatural => "offset must be a non-negative integer"
  | aboveCeiling limit ceiling =>
    "limit " ++ toString limit ++ " exceeds the maximum page size of " ++ toString ceiling
  | pageWithoutSize => "a page beyond the first requires a limit or a maximum page size"
  | invalidJson why => "invalid JSON: " ++ why
  | notAnObject => "structured query must be a JSON object"
  | emptyObject => "empty filter object"
  | notAnArray combinator => combinator ++ " expects an array"
  | notObjectOrArray => "$not expects an object or array"
  | childNotAnObject combinator => combinator ++ " children must be objects"
  | unknownOperator token => "unknown operator " ++ ticked token
  | mixedScope => "cannot mix operators and nested fields"
  | notAScalar => "comparison values must be scalars"
  | unbalanced => "unbalanced structured query"
  | uncoercible why => why.message
  | patternNotText => "like requires a string pattern"
  | noRelationship => "sub-directive without a relationship"
  | missingValue => "missing value"
  | toOne verb => "cannot " ++ verb ++ " a to-one relationship"
  | emptySort => "empty sort"
  | segmentsAfter marker => "unexpected segments after " ++ ticked marker

/-- Why a path leads to nothing that can be used. -/
inductive PathFault where
  | isRelationship (name : String)
  | unknownField (name resource : String)
  | writeOnly (name : String)
  | notQueryable (name : String)
  | notTraversable (name : String)
  | unknownRelationship (name resource : String)
  | notSelectable (name : String)
  | notEmbeddable (name : String)
  | notEmbedded (path : String)
  | notSortable (name : String)
  | notSortableIn (name parameter : String)
  | emptyEmbed
  | notARelationship
  | segmentNotARelationship (name : String)
deriving DecidableEq

def PathFault.message : PathFault → String
  | isRelationship name => ticked name ++ " is a relationship, not a field"
  | unknownField name resource => ticked name ++ " is not a field of " ++ ticked resource
  | writeOnly name => ticked name ++ " is write-only"
  | notQueryable name => ticked name ++ " is not queryable"
  | notTraversable name => ticked name ++ " is a field and cannot be traversed"
  | unknownRelationship name resource => ticked name ++ " is not a relationship of " ++ ticked resource
  | notSelectable name => ticked name ++ " cannot be selected"
  | notEmbeddable name => ticked name ++ " is a field and cannot be embedded"
  | notEmbedded path => ticked path ++ " is not embedded"
  | notSortable name => ticked name ++ " cannot be sorted on"
  | notSortableIn name parameter => ticked name ++ " cannot be sorted on (" ++ parameter ++ ")"
  | emptyEmbed => "empty embed path"
  | notARelationship => "not a relationship"
  | segmentNotARelationship name => ticked name ++ " is not a relationship"

/-- Why a request document cannot be worked on. -/
inductive RequestFault where
  | unknownOp (value : String)
  | opNotText
  | patchNotAnArray
  | identityNeeded (resource path : String)
  | bodyRequired
deriving DecidableEq

def RequestFault.message : RequestFault → String
  | unknownOp value => "unknown `$op` value " ++ ticked value ++ "; expected add, set, update or remove"
  | opNotText => "`$op` must be a string"
  | patchNotAnArray => "a collection patch must be an array"
  | identityNeeded resource path =>
    ticked resource ++ " at " ++ ticked path ++ " needs its identity fields to update or remove"
  | bodyRequired => "request body is required"

/-- Why a commit breaks a constraint. -/
inductive ConflictFault where
  | identityMissing (resource field : String)
  | alreadyExists (resource key : String)
  | identityChanges (resource key : String)
  | noKeyToLink (resource key relationship : String)
  | columnEmpty (resource key field : String)
deriving DecidableEq

def ConflictFault.message : ConflictFault → String
  | identityMissing resource field =>
    ticked resource ++ " requires a value for identity field " ++ ticked field
  | alreadyExists resource key => ticked resource ++ " " ++ key ++ " already exists"
  | identityChanges resource key => "identity of " ++ ticked resource ++ " " ++ key ++ " cannot change"
  | noKeyToLink resource key relationship =>
    ticked resource ++ " " ++ key ++ " has no key to link through " ++ ticked relationship
  | columnEmpty resource key field =>
    ticked resource ++ " " ++ key ++ ": " ++ ticked field ++ " cannot be empty"

/-- Why the store cannot work on what it is given. -/
inductive StoreFault where
  | pendingUnknown (slot : Nat)
  | slotOutOfOrder (slot : Nat)
  | rowWithoutIdentity (resource : String)
  | unknownRelationship (resource relationship : String)
deriving DecidableEq

def StoreFault.message : StoreFault → String
  | pendingUnknown slot => "pending entity " ++ toString slot ++ " referenced before it was created"
  | slotOutOfOrder slot => "create slot " ++ toString slot ++ " is out of order"
  | rowWithoutIdentity resource => ticked resource ++ " row is missing identity values"
  | unknownRelationship resource relationship =>
    ticked resource ++ " has no relationship " ++ ticked relationship

/-- Why descriptions of resources do not fit together. -/
inductive SchemaFault where
  | registeredTwice
  | noIdentity
  | identityUndeclared (field : String)
  | fieldTwice (field : String)
  | fieldAndRelationship (name : String)
  | unknownTarget (relationship target : String)
  | mismatchedColumns (relationship : String)
  | unknownHolderColumn (relationship resource column : String)
  | unknownReferencedColumn (relationship resource column : String)
  | invalidAssociation (relationship : String)
  | unknownInverse (relationship target inverse : String)
  | gateWithoutRelationship (relationship : String)
deriving DecidableEq

def SchemaFault.message : SchemaFault → String
  | registeredTwice => "resource registered twice"
  | noIdentity => "at least one identity field is required"
  | identityUndeclared field => "identity field " ++ ticked field ++ " is not declared"
  | fieldTwice field => "field " ++ ticked field ++ " declared twice"
  | fieldAndRelationship name => ticked name ++ " is both a field and a relationship"
  | unknownTarget relationship target =>
    "relationship " ++ ticked relationship ++ " targets unknown resource " ++ ticked target
  | mismatchedColumns relationship =>
    "relationship " ++ ticked relationship ++ " has mismatched join columns"
  | unknownHolderColumn relationship resource column =>
    "relationship " ++ ticked relationship ++ " joins on unknown column "
      ++ ticked (resource ++ "." ++ column)
  | unknownReferencedColumn relationship resource column =>
    "relationship " ++ ticked relationship ++ " references unknown column "
      ++ ticked (resource ++ "." ++ column)
  | invalidAssociation relationship =>
    "relationship " ++ ticked relationship ++ " has an invalid association table"
  | unknownInverse relationship target inverse =>
    ticked relationship ++ " back-populates unknown relationship " ++ ticked (target ++ "." ++ inverse)
  | gateWithoutRelationship relationship =>
    "gate registered for unknown relationship " ++ ticked relationship

/-! ## Issues -/

/-- One fault of a document, at a dotted path. -/
structure Issue where
  field : String
  code : String
  message : String
deriving DecidableEq

/-- What can be wrong at one place of a document. -/
inductive Defect where
  | notAnObject
  | identityImmutable
  | identityExists (resource key : String)
  | unknownField (name resource : String)
  | fieldReadOnly (name : String)
  | fieldMissing
  | valueNull
  | invalidType (why : CoercionFault)
  | relationshipReadOnly (name : String)
  | relationshipShape (name : String) (many : Bool)
  | alreadyMember (relationship : String)
  | notMember (relationship : String)
deriving DecidableEq

namespace Defect

def code : Defect → String
  | notAnObject => "document.not_object"
  | identityImmutable => "identity.immutable"
  | identityExists _ _ => "identity.exists"
  | unknownField _ _ => "field.unknown"
  | fieldReadOnly _ => "field.read_only"
  | fieldMissing => "field.required"
  | valueNull => "field.required"
  | invalidType _ => "field.invalid_type"
  | relationshipReadOnly _ => "relationship.read_only"
  | relationshipShape _ _ => "relationship.shape"
  | alreadyMember _ => "relationship.already_member"
  | notMember _ => "relationship.not_member"

def message : Defect → String
  | notAnObject => "expected an object"
  | identityImmutable => "identity cannot change"
  | identityExists resource key => ticked resource ++ " " ++ key ++ " already exists"
  | unknownField name resource => ticked name ++ " is not a field of " ++ ticked resource
  | fieldReadOnly name => ticked name ++ " is read-only"
  | fieldMissing => "field is required"
  | valueNull => "value cannot be null"
  | invalidType why => why.message
  | relationshipReadOnly name => ticked name ++ " is read-only"
  | relationshipShape name many =>
    ticked name ++ " expects " ++ (if many then "an array" else "an object or null")
  | alreadyMember relationship => "already a member of " ++ ticked relationship
  | notMember relationship => "not a member of " ++ ticked relationship

/-- The defect as an issue at a path. -/
def issueAt (d : Defect) (path : String) : Issue := ⟨path, d.code, d.message⟩

end Defect

/-- Issues keyed by path, each path with its issues in the order they were found. -/
def Issue.grouped (issues : List Issue) : Json :=
  .obj (issues.foldl (fun acc i =>
    let found := match Entries.get? i.field acc with
      | some (.arr items) => items
      | _ => []
    let item := Json.object [("code", .str i.code), ("message", .str i.message)]
    Entries.insert i.field (.arr (found ++ [item])) acc) [])

/-! ## Errors -/

inductive Error where
  | malformedQuery (parameter : String) (fault : ParameterFault)
  | invalidField (path : String) (fault : PathFault)
  | tooComplex (limit : Nat)
  | duplicateEmbed (path : String)
  | denied (resource : String) (attempt : Attempt)
  | notFound (resource what : String)
  | unprocessable (issues : List Issue)
  | badRequest (fault : RequestFault)
  | methodNotAllowed (method : Method) (path : String)
  | conflict (fault : ConflictFault)
  | invalidSchema (resource : String) (fault : SchemaFault)
  | store (fault : StoreFault)
deriving DecidableEq

namespace Error

def kind : Error → String
  | malformedQuery _ _ => "malformed_query"
  | invalidField _ _ => "invalid_filter_field"
  | tooComplex _ => "query_too_complex"
  | duplicateEmbed _ => "duplicate_embed"
  | denied _ _ => "permission_denied"
  | notFound _ _ => "not_found"
  | unprocessable _ => "unprocessable_entity"
  | badRequest _ => "bad_request"
  | methodNotAllowed _ _ => "method_not_allowed"
  | conflict _ => "conflict"
  | invalidSchema _ _ => "invalid_schema"
  | store _ => "store"

/-- The status an answer over HTTP would carry. -/
def status : Error → Nat
  | malformedQuery _ _ | invalidField _ _ | tooComplex _ | duplicateEmbed _ | badRequest _ => 400
  | denied _ _ => 403
  | notFound _ _ => 404
  | methodNotAllowed _ _ => 405
  | conflict _ => 409
  | unprocessable _ => 422
  | invalidSchema _ _ | store _ => 500

def message : Error → String
  | malformedQuery parameter fault =>
    "malformed query parameter " ++ ticked parameter ++ ": " ++ fault.message
  | invalidField path fault => "invalid field " ++ ticked path ++ ": " ++ fault.message
  | tooComplex limit => "query exceeds the maximum of " ++ toString limit ++ " filter nodes"
  | duplicateEmbed path => "relationship " ++ ticked path ++ " is embedded more than once"
  | denied resource attempt =>
    "permission denied: cannot " ++ attempt.describe ++ " on " ++ ticked resource
  | notFound resource what => ticked resource ++ " " ++ what ++ " not found"
  | unprocessable _ => "unprocessable entity"
  | badRequest fault => "bad request: " ++ fault.message
  | methodNotAllowed method path => "method " ++ method.name ++ " not allowed on " ++ ticked path
  | conflict fault => "conflict: " ++ fault.message
  | invalidSchema resource fault => "invalid schema for " ++ ticked resource ++ ": " ++ fault.message
  | store fault => "store error: " ++ fault.message

/-- The body an error is answered with. -/
def body (e : Error) : Json :=
  .object ([("kind", .str e.kind), ("message", .str e.message)] ++
    match e with
    | unprocessable issues => [("errors", Issue.grouped issues)]
    | _ => [])

end Error

end NestedResources
