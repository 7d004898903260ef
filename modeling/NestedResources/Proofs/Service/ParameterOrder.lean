import NestedResources.Proofs.Read.Similar
import NestedResources.Proofs.Service.Batch
import NestedResources.Proofs.Service.Reads

/-!
# The order of parameters

Parameters with distinct keys may be given in any order: a listing that succeeds in one order succeeds in
every other one, with the same answer (`Service.list_of_perm`).
-/
namespace NestedResources

namespace Service

variable {svc : Service} {ctx : Context} {r : Resource} {params others : Params} {d : Desk}

/-- A listing answers the same in whatever order its parameters are given, if their keys are distinct. -/
theorem list_of_perm (hr : svc.schema.resource? r.name = some r)
    (hkeys : (params.pairs.map (·.1)).Nodup) (hperm : params.pairs.Perm others.pairs)
    {answer : Collection} (h : ((svc.list ctx r params).on d).1 = .ok answer) :
    (svc.list ctx r others).on d = (.ok answer, d) := by
  rw [list_on] at h ⊢
  obtain ⟨_, hallowed, h⟩ := Except.bind_eq_ok.1 h
  obtain ⟨q, hq, h⟩ := Except.bind_eq_ok.1 h
  obtain ⟨reading, hreading, hanswer⟩ := Except.bind_eq_ok.1 h
  obtain ⟨p, hp, hqp⟩ := QuerySite.read_of_perm hkeys hperm hq
  obtain ⟨reading', hreading', hsame⟩ := Registry.exists_collection_of_similar d.store.tables hqp hr
    (QuerySite.sound_read hq) (QuerySite.sound_read hp) hreading svc.style
  refine congrArg (·, d) (Except.bind_eq_ok.2 ⟨(), hallowed, ?_⟩)
  refine Except.bind_eq_ok.2 ⟨p, hp, ?_⟩
  exact Except.bind_eq_ok.2 ⟨reading', hreading', hsame.trans hanswer⟩

end Service

namespace Music

/-- Sales staff with their reports of some names, one at most, and the manager of each. -/
def salesTeams : Params := ⟨[("employee_id-lt", "7"), ("reports._subquery_.last_name-like", "P%"),
  ("embeds", "reports.manager"), ("reports._limit_", "1"), ("title-like", "Sales%"),
  ("reports._subfilter_.employee_id-gt", "2"), ("fields", "last_name,reports.first_name"),
  ("reports._sorts_", "-last_name"), ("sort", "-employee_id")]⟩

theorem list_salesTeams_reversed : ∃ answer : Collection, answer.items.length = 4 ∧
    ((staffService.list (asUser 2) employees salesTeams).on staffDesk).1 = .ok answer ∧
    (staffService.list (asUser 2) employees ⟨salesTeams.pairs.reverse⟩).on staffDesk
      = (.ok answer, staffDesk) := by
  have hemployees : staffService.schema.resource? employees.name = some employees := by decide +kernel
  have hkeys : (salesTeams.pairs.map (·.1)).Nodup := by decide +kernel
  have hfour : ((staffService.list (asUser 2) employees salesTeams).on staffDesk).1.toOption.map
      (·.items.length) = some 4 := by decide +kernel
  obtain ⟨answer, hanswer, hlength⟩ := Option.map_eq_some_iff.1 hfour
  have hlist := Except.toOption_eq_some.1 hanswer
  have hperm : salesTeams.pairs.Perm salesTeams.pairs.reverse := (List.reverse_perm _).symm
  exact ⟨answer, hlength, hlist, Service.list_of_perm hemployees hkeys hperm hlist⟩

end Music

end NestedResources
