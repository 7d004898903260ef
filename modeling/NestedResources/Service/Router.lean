import NestedResources.Service.Resource

/-!
# Routing

A path names a resource, an entity of it, and then fields and relationships. A to-many relationship
is followed by the identity of a member, which must be one; a to-one relationship leads on to its
member.
-/
namespace NestedResources

structure Request where
  method : Method
  path : String
  params : Params := .empty
  body : Option Json := none

structure Response where
  status : Nat
  body : Json
  /-- The methods that a path takes, for `OPTIONS`. -/
  allow : List Method := []

namespace Response

def ok (body : Json) : Response := { status := 200, body }

def created (body : Json) : Response := { status := 201, body }

def ofError (e : Error) : Response := { status := e.status, body := e.body }

def isSuccess (r : Response) : Bool := 200 ≤ r.status && r.status < 300

end Response

/-- Where a path leads. -/
inductive Route where
  | collection (r : Resource)
  | entity (r : Resource) (identity : Identity)
  | field (r : Resource) (identity : Identity) (field : String)
  | toMany (r : Resource) (identity : Identity) (relationship : String)
  | toOne (r : Resource) (identity : Identity) (relationship : String)
      (member : Option (Resource × Identity))

namespace Route

/-- Whether a route takes a method at all. -/
def takes : Route → Method → Bool
  | _, .options => true
  | collection _, m => m ≠ .put
  | entity _ _, m => m ≠ .post
  | field _ _ _, m => m ≠ .delete
  | toMany _ _ _, m => m = .get || m = .post || m = .patch
  | toOne _ _ _ member, m => m = .get || m = .post || member.isSome

/-- The resource whose gate says which methods are allowed. -/
def gated : Route → Resource
  | collection r | entity r _ | field r _ _ | toMany r _ _ => r
  | toOne r _ _ member => (member.map (·.1)).getD r

end Route

namespace Service

variable (svc : Service) (ctx : Context)

/-- The segments of a path. -/
def segmentsOf (path : String) : List String := (Text.fields '/' path).filter (· ≠ "")

/-- The identity at the start of segments. -/
def takeIdentity (path : String) (r : Resource) (segments : List String) : Except Error Identity :=
  if segments.length < r.identity.length then .error (.notFound r.name path)
  else match r.parseIdentity? (segments.take r.identity.length) with
    | some i => .ok i
    | none => .error (.notFound r.name path)

/-- Follows segments from an entity. -/
def follow (path : String) (r : Resource) (i : Identity) (segments : List String) : Serving Route :=
  match segments with
  | [] => pure (.entity r i)
  | segment :: rest => do
    if (r.field? segment).isSome then
      if rest.isEmpty then return .field r i segment
      else throw (.notFound r.name path)
    match r.relationship? segment with
    | none => throw (.notFound r.name path)
    | some rel =>
      svc.ensureVisible ctx r i
      let (_, target) ← svc.related r segment
      if rel.isMany then
        if rest.isEmpty then return .toMany r i segment
        let child ← takeIdentity path target rest
        if ← svc.hasMember ctx r i segment child then
          follow path target child (rest.drop target.identity.length)
        else throw (.notFound target.name child.key)
      else
        let member ← svc.relatedIdentity ctx r i segment
        if rest.isEmpty then return .toOne r i segment (member.map (target, ·))
        match member with
        | none => throw (.notFound target.name path)
        | some m => follow path target m rest
termination_by segments.length
decreasing_by
  all_goals simp only [List.length_cons, List.length_drop]
  all_goals omega

/-- Where a path leads. -/
def route (path : String) : Serving Route := do
  match segmentsOf path with
  | [] => throw (.notFound "/" path)
  | name :: rest =>
    let r ← svc.schema.require name
    if rest.isEmpty then return .collection r
    let i ← takeIdentity path r rest
    svc.follow ctx path r i (rest.drop r.identity.length)

def requireBody (request : Request) : Except Error Json :=
  match request.body with
  | some body => .ok body
  | none => .error (.badRequest .bodyRequired)

/-- Answers a request on an entity. -/
def answerEntity (request : Request) (r : Resource) (i : Identity) : Serving Response := do
  match request.method with
  | .get => return .ok (← svc.getEntity ctx r i request.params)
  | .put => do
    let body ← requireBody request
    return .ok (← svc.update ctx r i body .replace request.params)
  | .patch => do
    let body ← requireBody request
    return .ok (← svc.update ctx r i body .patch request.params)
  | .delete => return .ok (← svc.delete ctx r (.entity i)).toJson
  | .post | .options => throw (.methodNotAllowed request.method (r.name ++ "/" ++ i.key))

/-- Answers a request on a route that takes its method. -/
def answer (request : Request) : Route → Serving Response
  | .collection r => do
    match request.method with
    | .get => return .ok (← svc.list ctx r request.params).toJson
    | .post => do
      let body ← requireBody request
      return .created (← svc.create ctx r body request.params)
    | .patch => do
      let body ← requireBody request
      return .ok (.arr (← svc.patchCollection ctx r body request.params))
    | _ => return .ok (← svc.delete ctx r (.query request.params)).toJson
  | .entity r i => svc.answerEntity ctx request r i
  | .field r i field => do
    match request.method with
    | .get => return .ok (← svc.getField ctx r i field)
    | _ => do
      let body ← requireBody request
      return .ok (← svc.updateField ctx r i field body)
  | .toMany r i relationship => do
    match request.method with
    | .get => return .ok (← svc.listRelated ctx r i relationship request.params).toJson
    | .post => do
      let body ← requireBody request
      return .created (← svc.createRelated ctx r i relationship body request.params)
    | _ => do
      let body ← requireBody request
      return .ok (← svc.patchRelated ctx r i relationship body request.params).toJson
  | .toOne r i relationship member => do
    match request.method, member with
    | .get, _ => return .ok (← svc.getRelatedOne ctx r i relationship request.params)
    | .post, _ => do
      let body ← requireBody request
      return .created (← svc.createRelated ctx r i relationship body request.params)
    | _, some (target, m) => svc.answerEntity ctx request target m
    | _, none => throw (.notFound r.name (i.key ++ "/" ++ relationship))

/-- Answers a request, or says why not. -/
def tryDispatch (request : Request) : Serving Response := do
  let route ← svc.route ctx request.path
  if request.method = .options then
    return { status := 200, body := .null, allow := (svc.allowedMethods ctx route.gated).filter route.takes }
  if route.takes request.method then svc.answer ctx request route
  else throw (.methodNotAllowed request.method request.path)

/-- Answers a request. An error is an answer too. -/
def dispatch (request : Request) (desk : Desk) : Response × Desk :=
  match (svc.tryDispatch ctx request).run.run desk with
  | (.ok response, desk) => (response, desk)
  | (.error e, desk) => (.ofError e, desk)

end Service

end NestedResources
