import NestedResources.Proofs.Service.Refusals
import NestedResources.Proofs.Service.Routing

/-!
# What `OPTIONS` answers

`OPTIONS` lists the methods that a route takes and one gate allows. The operations behind the route may
ask another gate, or about another method: `gatesBefore` and `gatesAfter` tell which. `OPTIONS` tells the
truth about a method exactly if they agree.
-/
namespace NestedResources

/-! ## The methods of a route -/

/-- Whether a request comes with a body, if its method takes one. -/
def Request.HasBody (request : Request) : Prop :=
  request.method = .get ∨ request.method = .delete ∨ request.body.isSome

namespace Service

open Serving

variable (svc : Service) (ctx : Context)

/-- The gate of the target of a relationship. -/
def targetGate (r : Resource) (relationship : String) (m : Method) : List (Resource × Method) :=
  match svc.related r relationship with
  | .ok (_, target) => [(target, m)]
  | .error _ => []

/-- The gates that a route asks about a method before anything is done. -/
def gatesBefore : Route → Method → List (Resource × Method)
  | .collection r, m | .entity r _, m => [(r, m)]
  | .field r _ _, m => [(r, if m = .get then .get else .patch)]
  | .toMany r _ name, .get | .toOne r _ name _, .get => (r, .get) :: svc.targetGate r name .get
  | .toMany r _ name, .post | .toOne r _ name _, .post => (r, .patch) :: svc.targetGate r name .post
  | .toMany r _ _, _ => [(r, .patch)]
  | .toOne _ _ _ (some (target, _)), m => [(target, m)]
  | .toOne _ _ _ none, _ => []

/-- The gates that a route asks when a write has been committed: the members that were patched are
listed. -/
def gatesAfter : Route → Method → List (Resource × Method)
  | .toMany r _ name, .patch => (r, .get) :: svc.targetGate r name .get
  | _, _ => []

/-- Whether the members of a to-many relationship are patched. -/
def PatchesMembers (request : Request) (d : Desk) : Route → Prop
  | .toMany r i name => ∃ items o after, request.body = some items ∧
      (WriteRequest.patchRelated i name items request.params).Commits svc ctx r d o after
  | _ => False

/-- Whether some of the gates refuses. -/
def AnyRefuses (gates : List (Resource × Method)) : Prop := ∃ g ∈ gates, svc.isAllowed ctx g.1 g.2 = false

variable {svc ctx}

theorem exists_body {request : Request} (h : request.HasBody) (hget : request.method ≠ .get)
    (hdelete : request.method ≠ .delete) :
    ∃ body, request.body = some body ∧ requireBody request = .ok body := by
  rcases h with h | h | h
  · exact absurd h hget
  · exact absurd h hdelete
  · obtain ⟨body, hbody⟩ := Option.isSome_iff_exists.1 h
    unfold requireBody
    exact ⟨body, hbody, by rw [hbody]⟩

theorem targetGate_eq {r target : Resource} {rel : Relationship} {name : String}
    (h : svc.related r name = .ok (rel, target)) (m : Method) : svc.targetGate r name m = [(target, m)] := by
  unfold targetGate
  rw [h]

theorem guardedBy_answerEntity {request : Request} (hbody : request.HasBody) (r : Resource) (i : Identity)
    (hpost : request.method ≠ .post) (hoptions : request.method ≠ .options) :
    svc.GuardedBy ctx [(r, request.method)] (svc.answerEntity ctx request r i) := by
  have hbody := exists_body hbody
  obtain ⟨method, path, params, _⟩ := request
  unfold answerEntity
  cases method with
  | get => exact (svc.guardedBy_getEntity ctx r i params).before fun _ => tolerates_pure _
  | put =>
    obtain ⟨body, -, hrequire⟩ := hbody nofun nofun
    exact .after hrequire <| (svc.guardedBy_update ctx r i params body .replace).before fun _ => tolerates_pure _
  | patch =>
    obtain ⟨body, -, hrequire⟩ := hbody nofun nofun
    exact .after hrequire <| (svc.guardedBy_update ctx r i params body .patch).before fun _ => tolerates_pure _
  | delete => exact (svc.guardedBy_delete ctx r _).before fun _ => tolerates_pure _
  | post => exact absurd rfl hpost
  | options => exact absurd rfl hoptions

/-- A member created through a relationship asks both ends. -/
theorem guardedBy_post {request : Request} {body : Json} (hrequire : requireBody request = .ok body)
    {r target : Resource} {rel : Relationship} {name : String} (i : Identity)
    (hrelated : svc.related r name = .ok (rel, target)) :
    svc.GuardedBy ctx [(r, .patch), (target, .post)] (do
      let body ← requireBody request
      return Response.created (← svc.createRelated ctx r i name body request.params)) :=
  .after hrequire <| (guardedBy_createRelated ctx i request.params hrelated body).before fun _ =>
    tolerates_pure _

/-- An answer to anything but a patch of members is refused for its method by the gates that are asked
before. -/
theorem guardedBy_answer {route : Route} (hroute : svc.Relates route) {request : Request}
    (hbody : request.HasBody) (htakes : route.takes request.method = true)
    (hoptions : request.method ≠ .options) (hafter : svc.gatesAfter route request.method = []) :
    svc.GuardedBy ctx (svc.gatesBefore route request.method) (svc.answer ctx request route) := by
  have hentity : ∀ r i, _ → _ → svc.GuardedBy ctx _ _ := guardedBy_answerEntity hbody
  have hbody := exists_body hbody
  obtain ⟨method, path, params, _⟩ := request
  cases route with
  | collection r =>
    cases method with
    | get => exact (svc.guardedBy_list ctx r params).before fun _ => tolerates_pure _
    | post =>
      obtain ⟨body, -, hrequire⟩ := hbody nofun nofun
      exact .after hrequire <| (svc.guardedBy_create ctx r params body).before fun _ => tolerates_pure _
    | patch =>
      obtain ⟨body, -, hrequire⟩ := hbody nofun nofun
      exact .after hrequire <| (svc.guardedBy_patchCollection ctx r params body).before fun _ => tolerates_pure _
    | delete => exact (svc.guardedBy_delete ctx r _).before fun _ => tolerates_pure _
    | put => cases htakes
    | options => exact absurd rfl hoptions
  | entity r i => exact hentity r i (by simpa [Route.takes] using htakes) hoptions
  | field r i name =>
    cases method with
    | get => exact (svc.guardedBy_getField ctx r i name).before fun _ => tolerates_pure _
    | post | put | patch =>
      obtain ⟨body, -, hrequire⟩ := hbody nofun nofun
      exact .after hrequire <| (svc.guardedBy_updateField ctx r i name body).before fun _ => tolerates_pure _
    | delete => cases htakes
    | options => exact absurd rfl hoptions
  | toMany r i name =>
    obtain ⟨rel, target, hrelated⟩ := hroute
    cases method with
    | get =>
      simp only [gatesBefore, targetGate_eq hrelated]
      exact (guardedBy_listRelated ctx i params hrelated).before fun _ => tolerates_pure _
    | post =>
      obtain ⟨body, -, hrequire⟩ := hbody nofun nofun
      simp only [gatesBefore, targetGate_eq hrelated]
      exact guardedBy_post hrequire i hrelated
    | patch => cases hafter
    | put | delete => cases htakes
    | options => exact absurd rfl hoptions
  | toOne r i name member =>
    obtain ⟨rel, target, hrelated⟩ := hroute
    cases method with
    | get =>
      simp only [gatesBefore, targetGate_eq hrelated]
      exact (guardedBy_getRelatedOne ctx i params hrelated).before fun _ => tolerates_pure _
    | post =>
      obtain ⟨body, -, hrequire⟩ := hbody nofun nofun
      simp only [gatesBefore, targetGate_eq hrelated]
      exact guardedBy_post hrequire i hrelated
    | put | patch | delete =>
      cases member with
      | none => cases htakes
      | some member => exact hentity member.1 member.2 nofun hoptions
    | options => exact absurd rfl hoptions

/-- An answer is refused for its method by a gate that is asked before, or by one that is asked after
members have been patched. -/
theorem refuses_answer {route : Route} (hroute : svc.Relates route) {request : Request}
    (hbody : request.HasBody) (htakes : route.takes request.method = true)
    (hoptions : request.method ≠ .options) {d : Desk} :
    (svc.answer ctx request route).Refuses d ↔ svc.AnyRefuses ctx (svc.gatesBefore route request.method) ∨
      svc.PatchesMembers ctx request d route ∧ svc.AnyRefuses ctx (svc.gatesAfter route request.method) := by
  by_cases hafter : svc.gatesAfter route request.method = []
  · rw [guardedBy_answer hroute hbody htakes hoptions hafter d, hafter]
    simp [AnyRefuses]
  · have hbody := exists_body hbody
    obtain ⟨method, path, params, _⟩ := request
    unfold gatesAfter at hafter
    split at hafter
    · rename_i r i name hmethod
      cases hmethod
      obtain ⟨body, hbody, hrequire⟩ := hbody nofun nofun
      cases hbody
      obtain ⟨rel, target, hrelated⟩ := hroute
      have hpatch : (svc.patchRelated ctx r i name body params).Refuses d ↔ _ :=
        refuses_patchRelated ctx i params hrelated body
      simp only [answer]
      rw [refuses_bind_of_ok (by rw [liftM_on, hrequire]),
        refuses_bind_of_tolerates fun _ => tolerates_pure _, hpatch]
      simp [gatesBefore, gatesAfter, targetGate_eq hrelated, AnyRefuses, PatchesMembers]
    · exact absurd rfl hafter

/-- The methods that `OPTIONS` answers for a path: those that the route takes and its gate allows. -/
theorem mem_allow_iff {path : String} {route : Route} {d : Desk}
    (hroute : ((svc.route ctx path).on d).1 = .ok route) {m : Method} (hm : m ≠ .options) :
    m ∈ (svc.dispatch ctx { method := .options, path } d).1.allow ↔
      route.takes m = true ∧ svc.isAllowed ctx route.gated m = true := by
  have hon : (svc.route ctx path).on d = (.ok route, d) :=
    Prod.ext hroute (svc.finds_route ctx path d).1
  have hdispatch : (svc.tryDispatch ctx { method := .options, path }).on d =
      (.ok { status := 200, body := .null,
             allow := (svc.allowedMethods ctx route.gated).filter route.takes }, d) := by
    unfold tryDispatch
    rw [bind_on, hon]
    rfl
  have hallow : (svc.dispatch ctx { method := .options, path } d).1.allow =
      (svc.allowedMethods ctx route.gated).filter route.takes := by
    unfold dispatch
    change (match (svc.tryDispatch ctx { method := .options, path }).on d with
      | (.ok response, desk) => (response, desk)
      | (.error e, desk) => (Response.ofError e, desk)).1.allow = _
    rw [hdispatch]
  rw [hallow, List.mem_filter, allowedMethods, List.mem_append, List.mem_filter, and_comm]
  cases m <;> simp at hm ⊢

/-- A request is refused for its method if its route does not take it, or by a gate. -/
theorem refuses_tryDispatch {request : Request} {route : Route} {d : Desk}
    (hroute : ((svc.route ctx request.path).on d).1 = .ok route) (hbody : request.HasBody)
    (hoptions : request.method ≠ .options) :
    (svc.tryDispatch ctx request).Refuses d ↔ route.takes request.method = false ∨
      svc.AnyRefuses ctx (svc.gatesBefore route request.method) ∨
      svc.PatchesMembers ctx request d route ∧ svc.AnyRefuses ctx (svc.gatesAfter route request.method) := by
  have hfinds := svc.finds_route ctx request.path d
  have hon : (svc.route ctx request.path).on d = (.ok route, d) := Prod.ext hroute hfinds.1
  unfold tryDispatch
  rw [refuses_bind_of_ok hon, if_neg hoptions]
  cases htakes : route.takes request.method
  · simp [refuses_throw, Error.refusesMethod]
  · simpa using refuses_answer (hfinds.2 route hroute) hbody htakes hoptions

/-- `OPTIONS` tells the truth about a method exactly if the gate that it asks answers like those that
the operation asks. -/
theorem options_truthful_iff {request : Request} {route : Route} {d : Desk}
    (hroute : ((svc.route ctx request.path).on d).1 = .ok route) (hbody : request.HasBody)
    (hoptions : request.method ≠ .options) :
    (request.method ∈ (svc.dispatch ctx { method := .options, path := request.path } d).1.allow ↔
        ¬(svc.tryDispatch ctx request).Refuses d) ↔
      (route.takes request.method = true → (svc.isAllowed ctx route.gated request.method = true ↔
        ¬svc.AnyRefuses ctx (svc.gatesBefore route request.method) ∧
        ¬(svc.PatchesMembers ctx request d route ∧
          svc.AnyRefuses ctx (svc.gatesAfter route request.method)))) := by
  rw [mem_allow_iff hroute hoptions, refuses_tryDispatch hroute hbody hoptions]
  cases route.takes request.method <;> simp

end Service

namespace Music

/-- Entities are replaced as a whole, never in part. -/
def replaceOnly : Gate where
  allows := fun _ m _ => m ≠ .patch

def replacingStaff : Service where
  registry := { staff with gates := [("employees", replaceOnly)] }

def replacingDesk : Desk := ⟨⟨staffTables employeeRows, 0⟩, []⟩

theorem route_title : ((replacingStaff.route .empty "/employees/2/title").on replacingDesk).1 =
    .ok (.field employees ⟨[.int 2]⟩ "title") := by
  have hr : replacingStaff.schema.resource? employees.name = some employees := by decide +kernel
  have hpath : Service.segmentsOf "/employees/2/title" = employees.name :: (["2"] ++ ["title"]) := by
    decide +kernel
  have hsecond : employees.parseIdentity? ["2"] = some ⟨[.int 2]⟩ := rfl
  have htitle : (employees.field? "title").isSome = true := rfl
  rw [Service.route_on_entity hr hpath hsecond, Service.follow, if_pos htitle]
  rfl

def optionsOfTitle : Request := { method := .options, path := "/employees/2/title" }

def putTitle : Request := { method := .put, path := "/employees/2/title", body := some (.str "Lead") }

def getTitle : Request := { method := .get, path := "/employees/2/title" }

/-- A field may be put, `OPTIONS` says; whoever does so is refused, for fields are patched by any method. -/
theorem put_listed_and_refused :
    ¬(.put ∈ (replacingStaff.dispatch .empty optionsOfTitle replacingDesk).1.allow ↔
      ¬(replacingStaff.tryDispatch .empty putTitle).Refuses replacingDesk) := by
  decide +kernel

/-- A field is read by the gate that `OPTIONS` asks. -/
theorem get_title_truthful :
    .get ∈ (replacingStaff.dispatch .empty optionsOfTitle replacingDesk).1.allow ↔
      ¬(replacingStaff.tryDispatch .empty getTitle).Refuses replacingDesk := by
  have hiff := @Service.options_truthful_iff replacingStaff .empty getTitle _ _ route_title (.inl rfl) nofun
  refine hiff.2 fun _ => ?_
  simp [Service.gatesBefore, Service.AnyRefuses, Service.PatchesMembers, Route.gated, getTitle]

end Music

end NestedResources
