import NestedResources.Proofs.Service.RelationshipUpdate
import NestedResources.Proofs.Service.Routing
import NestedResources.Proofs.Service.Serving
import NestedResources.Proofs.Write.Reached

/-!
# Posting to a relationship

A document that is posted to a relationship of an entity is committed as an update of this entity. Whoever
is answered is a member then, if nothing in the document undoes it (`Service.member_of_createRelated`).
-/
namespace NestedResources

namespace Outcome

variable {plan : Plan} {roots : List EntityRef} {report : Report} {name : String}

/-- If nothing is created, then no entity is the first one. -/
theorem firstCreated?_of_no_create (h : ∀ slot name values, .create slot name values ∉ plan.commands) :
    (ofReport plan roots report).firstCreated? name = none := by
  have hcreated : (ofReport plan roots report).created = [] := by
    refine List.filterMap_eq_nil_iff.2 fun c hc => ?_
    cases c with
    | create slot other values => exact absurd hc (h slot other values)
    | _ => rfl
  rw [firstCreated?, hcreated]
  rfl

/-- The entity of the first slot is the first one, if it is created first. -/
theorem firstCreated?_of_head {j : Identity} {values : Record} {more : List Command}
    (h : plan.commands = .create 0 name values :: more) (hcreated : report.created[0]? = some j) :
    (ofReport plan roots report).firstCreated? name = some j := by
  simp [firstCreated?, ofReport, h, hcreated]

end Outcome

namespace Service

variable {svc : Service} {ctx : Context} {r target : Resource} {rel : Relationship} {i : Identity}
  {record : Record} {document : Json} {params : Params} {d after : Desk} {answer : Json}

/-- What is posted is committed as an update, and then the entity is read again. -/
theorem exists_commit_of_createRelated (hrelated : svc.related r rel.name = .ok (rel, target))
    (h : (svc.createRelated ctx r i rel.name document params).on d = (.ok answer, after)) :
    ∃ q o, svc.readQuery target params = .ok q ∧
      (Serving.commit svc.registry ctx
        (WriteOp.update r.name i (WalkSite.posted rel document) .patch).walk).on d = (.ok o, after) ∧
      (((document.object?.bind target.identityIn?).or (o.firstCreated? target.name) = none ∧ answer = .null) ∨
        ∃ j, (document.object?.bind target.identityIn?).or (o.firstCreated? target.name) = some j ∧
          (svc.reread ctx target { q with window := .unbounded } j).on after = (.ok answer, after)) := by
  have hstep {β : Type} (x : Except Error β) : (liftM x : Serving β).Finds (x = .ok ·) :=
    Serving.finds_liftM fun _ h => h
  obtain ⟨_, -, h⟩ := (hstep _).of_on_bind h
  obtain ⟨_, hfound, h⟩ := (hstep _).of_on_bind h
  cases hrelated.symm.trans hfound
  obtain ⟨_, -, h⟩ := (hstep _).of_on_bind h
  obtain ⟨q, hq, h⟩ := (hstep _).of_on_bind h
  obtain ⟨o, committed, hcommit, h⟩ := Serving.on_bind_eq_ok.1 h
  refine ⟨q, o, hq, ?_⟩
  cases hnamed : (document.object?.bind target.identityIn?).or (o.firstCreated? target.name) with
  | none =>
    rw [hnamed] at h
    cases h
    exact ⟨hcommit, .inl ⟨rfl, rfl⟩⟩
  | some j =>
    rw [hnamed] at h
    obtain ⟨reread, hreread, -⟩ := svc.reads_reread ctx target { q with window := .unbounded } j committed
    have hsame := h
    dsimp only at hsame
    rw [hreread] at hsame
    cases hsame
    exact ⟨hcommit, .inr ⟨j, rfl, h⟩⟩

/-- Whoever is answered by a document that is posted to a relationship of a stored entity is a member of the
relationship then, if the document asks for the membership and for nothing that undoes it. -/
theorem member_of_createRelated (hexact : d.store.tables.Exact svc.schema)
    (hr : svc.schema.resource? r.name = some r) (hrelated : svc.related r rel.name = .ok (rel, target))
    (hself : rel.name ≠ selfKey) (hnames : target.NamesExactly) (hstores : d.store.tables.Stores r i record)
    (hupholds : ∀ members, document = .obj members →
      (Posting.ofDocument r i rel target members).Upholds svc.schema d.store.tables record members)
    (h : (svc.createRelated ctx r i rel.name document params).on d = (.ok answer, after))
    (hanswer : answer ≠ .null) :
    ∃ q j new, svc.readQuery target params = .ok q ∧
      (svc.reread ctx target { q with window := .unbounded } j).on after = (.ok answer, after) ∧
      after.store.tables.row? r.name i = some new ∧ r.FiledAt i.key new ∧
      j.key ∈ after.store.tables.memberKeys svc.schema r target new rel := by
  obtain ⟨hrel, htarget⟩ := related_eq_ok hrelated
  obtain ⟨q, o, hq, hcommit, ⟨-, hnull⟩ | ⟨j, hj, hreread⟩⟩ := exists_commit_of_createRelated hrelated h
  · exact absurd hnull hanswer
  obtain ⟨roots, w, p, hrun, hclean, hplan, hfull, hstore⟩ := Serving.exists_full_progress_of_commit_ok hcommit
  cases (Serving.commit_of_plan hrun hclean hplan hfull).symm.trans hcommit
  obtain ⟨htypes, hfiled⟩ := hexact r hr
  by_cases hobject : ∃ members, document = .obj members
  · obtain ⟨members, rfl⟩ := hobject
    have hposts := WalkSite.update_posts hr hrel htarget hexact (hupholds members rfl) hself hstores hrun hclean
    have hgrounds := (WriteOp.sound hrun).authorised.grounds hexact.filed
    have hstored : (Posting.ofDocument r i rel target members).Stored svc.schema d.store.tables i record :=
      ⟨hr, hrel, htarget, hexact.filed, rfl, hstores.row⟩
    obtain ⟨key, new, htold, hnew, hfiledAt, hmember⟩ := hposts.member_of_run hstored (hupholds members rfl) hnames
      rfl hgrounds hplan hfull
    have hkey : key = j.key := by
      rcases htold with hnamed | ⟨hunnamed, first, values, more, rfl, hcreated, hcommands⟩
      · obtain ⟨named, hgiven, rfl⟩ := Option.map_eq_some_iff.1 hnamed
        cases (congrArg (Option.or · _) hgiven).symm.trans hj
        rfl
      · rw [show (Json.obj members).object?.bind target.identityIn? = none from Option.map_eq_none_iff.1 hunnamed,
          Option.none_or] at hj
        have hfirst : (Outcome.ofReport w.plan roots ⟨p.created, p.writes⟩).firstCreated? target.name = some first :=
          Outcome.firstCreated?_of_head hcommands hcreated
        exact congrArg Identity.key (Option.some.inj (hfirst.symm.trans hj))
    exact ⟨q, j, new, hq, hreread, hstore ▸ hnew, hfiledAt, hkey ▸ hstore ▸ hmember⟩
  · have hnothing := WalkSite.posted_creates_nothing hr hrel htarget
      (hfiled.pinpoints htypes hstores svc.schema) hself (fun members hmembers => hobject ⟨members, hmembers⟩) hrun
      hclean
    have hunnamed : document.object?.bind target.identityIn? = none := by
      cases document with
      | obj members => exact absurd ⟨members, rfl⟩ hobject
      | _ => rfl
    rw [hunnamed, Option.none_or, Outcome.firstCreated?_of_no_create hnothing] at hj
    cases hj

end Service

namespace Music

/-- The staff, open to everybody. -/
def openService : Service := { registry := openStaff }

theorem exact_staffDesk : staffDesk.store.tables.Exact openService.schema := by
  intro r hr
  obtain ⟨-, rfl⟩ := resource_staff hr
  exact ⟨namesExactly_employees.exact, filedExactly_staffDesk⟩

theorem related_reports : openService.related employees reports.name = .ok (reports, employees) := by
  rfl

/-- Somebody who is hired with a report of her own, and who gets the sixth employee with a new title. -/
def laura : List (String × Json) := [
  ("first_name", .str "Laura"),
  ("last_name", .str "Callahan"),
  ("reports", .arr [
    .obj [("first_name", .str "Robert"), ("last_name", .str "King")],
    .obj [("employee_id", .int 6), ("title", .str "Assistant")]])]

def postReport (members : List (String × Json)) : Except Error Json × Desk :=
  (openService.createRelated ⟨.empty⟩ employees ⟨[.int 2]⟩ "reports" (.obj members) ⟨[]⟩).on staffDesk

theorem upholds_laura : (Posting.ofDocument employees ⟨[.int 2]⟩ reports employees laura).Upholds
    openService.schema staffDesk.store.tables employeeRows[1].record laura where
  keeps := by decide +kernel
  nodup := by decide +kernel
  links := by decide +kernel
  spares := by decide +kernel
  settled := fun key hkey => by cases hkey
  requires := fun hone => by cases hone

/-- Laura reports to the second employee. -/
theorem laura_reports : ∃ answer after q j new,
    postReport laura = (.ok answer, after) ∧ openService.readQuery employees ⟨[]⟩ = .ok q ∧
      (openService.reread ⟨.empty⟩ employees { q with window := .unbounded } j).on after = (.ok answer, after) ∧
      after.store.tables.row? "employees" ⟨[.int 2]⟩ = some new ∧ employees.FiledAt "2" new ∧
      j.key ∈ after.store.tables.memberKeys openService.schema employees employees new reports := by
  rcases hon : postReport laura with ⟨result, after⟩
  have hok : (postReport laura).1.isOk = true := by decide +kernel
  have hshown : (postReport laura).1.toOption.map Json.isNull = some false := by decide +kernel
  rw [hon] at hok hshown
  obtain ⟨answer, rfl⟩ := Except.exists_of_isOk hok
  have hstores : staffDesk.store.tables.Stores employees ⟨[.int 2]⟩ employeeRows[1].record := ⟨rfl, rfl⟩
  obtain ⟨q, j, new, hmember⟩ := Service.member_of_createRelated exact_staffDesk
    (by decide +kernel) related_reports (by decide) namesExactly_employees hstores
    (fun members hmembers => Json.obj.inj hmembers ▸ upholds_laura) hon
    (fun hnull => by rw [hnull] at hshown; cases hshown)
  exact ⟨answer, after, q, j, new, rfl, hmember⟩

/-- A document may detach its entity from the relationship that it is posted to: the third employee is answered,
and does not report to the second one any more. -/
theorem detached_report_answered :
    openService.registry.IsOpen ∧ staffDesk.store.tables.Exact openService.schema ∧
      staffDesk.store.tables.Stores employees ⟨[.int 2]⟩ employeeRows[1].record ∧
      let posted := postReport [("$op", .str "remove"), ("employee_id", .int 3)]
      posted.1.toOption.any (fun answer => (answer.getD "employee_id").same (.int 3)) = true ∧
        (posted.2.store.tables.row? "employees" ⟨[.int 2]⟩).map (fun record =>
          posted.2.store.tables.memberKeys openService.schema employees employees record reports) =
            some ["4", "5"] :=
  ⟨isOpen_openStaff, exact_staffDesk, ⟨rfl, rfl⟩, by decide +kernel, by decide +kernel⟩

end Music

end NestedResources
