import NestedResources.Proofs.Read.Visible
import NestedResources.Proofs.Service.Reads

/-!
# What a gate hides does not show

Two states of the tables with the same links, and with the same rows that pass what the gates require,
give the same answers to reading: the same entities, numbers and pages, and the same errors.
-/
namespace NestedResources

/-- The same links, and for every resource the same rows that pass what its gate requires, each taken
in its own state. -/
structure Registry.SameVisible (g : Registry) (ctx : Context) (t u : Tables) : Prop where
  links : ∀ name, t.linksOf name = u.linksOf name
  rows : ∀ name r p record, g.schema.resource? name = some r → g.required ctx r = .ok p →
    (record ∈ t.rowsOf name ∧ t.passes g.schema r p record = true ↔
      record ∈ u.rowsOf name ∧ u.passes g.schema r p record = true)

namespace Registry

variable {g : Registry} {ctx : Context} {t u : Tables}

theorem SameVisible.symm (h : g.SameVisible ctx t u) : g.SameVisible ctx u t where
  links name := (h.links name).symm
  rows name r p record hr hp := (h.rows name r p record hr hp).symm

/-- A row that is seen in one state is found under the same key in the other, and is seen there. -/
theorem SameVisible.rowAt?_of_sees (h : g.SameVisible ctx t u) (ht : t.Filed g.schema)
    (hu : u.Filed g.schema) (beyond : Resource → Record → Bool) {levels : Nat}
    (hlt : requiredDepth < levels) {name key : String} {r : Resource} {p : Option Predicate}
    {record : Record} (hr : g.schema.resource? name = some r) (hp : g.required ctx r = .ok p)
    (hrow : t.rowAt? name key = some record) (hsees : g.sees ctx t beyond levels r record = true) :
    u.rowAt? name key = some record ∧ g.sees ctx u beyond levels r record = true := by
  rw [← passes_required t beyond hlt hr hp] at hsees
  rw [← passes_required u beyond hlt hr hp]
  obtain ⟨hmem, hpasses⟩ := (h.rows name r p record hr hp).1 ⟨Tables.mem_rowsOf.2 ⟨key, hrow⟩, hsees⟩
  obtain ⟨i, hi, hiu⟩ := hu.row?_of_mem hr hmem
  obtain ⟨j, hj, rfl⟩ := ht name key r record hr hrow
  cases hi.symm.trans hj
  exact ⟨hiu, hpasses⟩

/-- States with the same visible rows are alike as to what is seen. -/
theorem SameVisible.alike (h : g.SameVisible ctx t u) (ht : t.Filed g.schema) (hu : u.Filed g.schema)
    (hrequired : ∀ name r, g.schema.resource? name = some r → ∃ p, g.required ctx r = .ok p)
    (beyond : Resource → Record → Bool) {levels : Nat} (hlt : requiredDepth < levels) :
    Alike g.schema t u (g.sees ctx t beyond levels) (g.sees ctx u beyond levels) := by
  refine ⟨h.links, fun name r key hr => ?_⟩
  obtain ⟨p, hp⟩ := hrequired name r hr
  ext record
  rw [Option.filter_eq_some_iff, Option.filter_eq_some_iff]
  constructor
  · rintro ⟨hrow, hsees⟩
    exact h.rowAt?_of_sees ht hu beyond hlt hr hp hrow hsees
  · rintro ⟨hrow, hsees⟩
    exact h.symm.rowAt?_of_sees hu ht beyond hlt hr hp hrow hsees

/-- Whether a row has an identity does not depend on the tables. -/
theorem passes_identity (r : Resource) (i : Identity) (record : Record) :
    t.passes g.schema r (some (.identity r i)) record
      = u.passes g.schema r (some (.identity r i)) record := by
  simp [Tables.passes, Predicate.identity, Predicate.holds, Predicate.holdsAll_eq_all,
    List.all_map, Function.comp_def]

/-- The readings of one query give the same page and the same first row in both states. -/
theorem SameVisible.reading_eq (h : g.SameVisible ctx t u) (ht : t.Filed g.schema)
    (hu : u.Filed g.schema)
    (hrequired : ∀ name r, g.schema.resource? name = some r → ∃ p, g.required ctx r = .ok p)
    {r : Resource} (hr : g.schema.resource? r.name = some r) {q : Query}
    (hes : q.embeds.Sound (Embed.Admitted g.schema r)) {scope : Option Predicate}
    (hscope : ∀ record, t.passes g.schema r scope record = u.passes g.schema r scope record)
    {reading : Reading} (hreading : g.reading ctx r.name q scope = .ok reading) (style : RenderStyle) :
    reading.collection t g.schema style = reading.collection u g.schema style ∧
      reading.first t g.schema style = reading.first u g.schema style := by
  have hlt : requiredDepth < 9 := by decide
  have halike := h.alike ht hu hrequired (fun _ _ => true) hlt
  have hof := readingOf_of_reading hr hes.validate hreading
  have hselected := halike.selected_eq q hr hscope
  have hmatching := halike.matching_eq q hr hscope
  have hnested := funext (halike.nested_eq q.embeds r [])
  constructor
  · rw [collection_eq t _ hlt ht hr hes hof, collection_eq u _ hlt hu hr hes hof, hselected, hmatching,
      hnested]
  · rw [first_eq t _ hlt ht hr hes hof, first_eq u _ hlt hu hr hes hof, hselected, hnested]

end Registry

namespace Service

variable (svc : Service) (ctx : Context) (r : Resource)

/-- What gates hide does not show. On two desks whose tables file every row under its own key, have the
same links and the same rows that pass what the gates require, a list has the same items, number and
page, an entity is the same, and what fails does so with the same error. -/
theorem reads_eq_of_sameVisible (hr : svc.schema.resource? r.name = some r)
    (hrequired : ∀ name r, svc.schema.resource? name = some r →
      ∃ p, svc.registry.required ctx r = .ok p)
    {d e : Desk} (hd : d.store.tables.Filed svc.schema) (he : e.store.tables.Filed svc.schema)
    (h : svc.registry.SameVisible ctx d.store.tables e.store.tables) (params : Params) :
    ((svc.list ctx r params).on d).1 = ((svc.list ctx r params).on e).1 ∧
      ∀ i, ((svc.getEntity ctx r i params).on d).1 = ((svc.getEntity ctx r i params).on e).1 := by
  constructor
  · rw [list_on, list_on]
    refine Except.bind_congr fun _ _ => Except.bind_congr fun q hq =>
      Except.bind_congr fun reading hreading => ?_
    exact (h.reading_eq hd he hrequired hr (QuerySite.sound_read hq) (fun _ => rfl) hreading svc.style).1
  · intro i
    rw [getEntity_on, getEntity_on]
    refine Except.bind_congr fun _ _ => Except.bind_congr fun q hq =>
      Except.bind_congr fun reading hreading => ?_
    have hfirst := (h.reading_eq hd he hrequired hr (q := { q with window := .unbounded })
      (QuerySite.sound_read hq) (Registry.passes_identity r i) hreading svc.style).2
    exact congrArg (· >>= orNotFound r i) hfirst

end Service

namespace Music

/-- What the second employee sees: herself and those who report to her. -/
def ownTeam : Predicate :=
  .or [.compare "employee_id" .integer .eq (.int 2), .compare "reports_to" .integer .eq (.int 2)]

def staffService : Service := { registry := staff }

theorem resource_staff {name : String} {r : Resource} (h : staff.schema.resource? name = some r) :
    name = "employees" ∧ r = employees := by
  simp only [Schema.resource?, staff, Dict.get?, Dict.ofList, Entries.ofList, List.foldl_cons,
    List.foldl_nil, Entries.insert, Entries.get?] at h
  split at h
  · rename_i hname
    cases h
    exact ⟨hname.symm, rfl⟩
  · cases h

theorem required_staff : staff.required (asUser 2) employees = .ok (some ownTeam) := rfl

/-- A hidden row may be replaced by another one. -/
theorem sameVisible_putRow {t : Tables} {key : String} {record : Record}
    (hhidden : ∀ row, t.rowAt? "employees" key = some row ∨ row = record →
      t.passes staff.schema employees (some ownTeam) row = false) :
    staff.SameVisible (asUser 2) t (t.putRow "employees" key record) := by
  refine ⟨fun name => (Tables.linksOf_putRow ..).symm, fun name r p row hr hp => ?_⟩
  obtain ⟨rfl, rfl⟩ := resource_staff hr
  cases required_staff.symm.trans hp
  have hsame : (t.putRow "employees" key record).passes staff.schema employees (some ownTeam) row
      = t.passes staff.schema employees (some ownTeam) row := rfl
  rw [hsame, Tables.mem_rowsOf, Tables.mem_rowsOf]
  refine and_congr_left fun hpasses => exists_congr fun other => ?_
  by_cases hother : other = key
  · subst hother
    rw [Tables.rowAt?_putRow_self]
    constructor
    · intro hrow
      rw [hhidden row (.inl hrow)] at hpasses
      cases hpasses
    · intro hrow
      rw [hhidden row (.inr (Option.some.inj hrow).symm)] at hpasses
      cases hpasses
  · rw [Tables.rowAt?_putRow_of_key_ne t "employees" record hother]

/-- Somebody else as the first employee, who is hidden from the second. -/
def otherHead : Record :=
  Employee.record ⟨1, "Zoe", "Zimmer", "President", none, "zoe@chinookcorp.com"⟩

theorem otherHead_hidden (row : Record)
    (h : (staffTables employeeRows).rowAt? "employees" "1" = some row ∨ row = otherHead) :
    (staffTables employeeRows).passes staff.schema employees (some ownTeam) row = false := by
  have hold : ((staffTables employeeRows).rowAt? "employees" "1").all
      (fun row => !(staffTables employeeRows).passes staff.schema employees (some ownTeam) row) = true := by
    decide +kernel
  rcases h with h | rfl
  · rw [h, Option.all_some, Bool.not_eq_true'] at hold
    exact hold
  · decide +kernel

/-- Those whose manager is not named Adams, each with the manager. -/
def withManagers : Params := ⟨[("embeds", "manager"), ("manager.last_name-ne", "Adams")]⟩

theorem reads_eq_otherHead :
    ((staffService.list (asUser 2) employees withManagers).on ⟨⟨staffTables employeeRows, 0⟩, []⟩).1
        = ((staffService.list (asUser 2) employees withManagers).on
          ⟨⟨(staffTables employeeRows).putRow "employees" "1" otherHead, 0⟩, []⟩).1 ∧
      ∀ i, ((staffService.getEntity (asUser 2) employees i withManagers).on
          ⟨⟨staffTables employeeRows, 0⟩, []⟩).1
        = ((staffService.getEntity (asUser 2) employees i withManagers).on
          ⟨⟨(staffTables employeeRows).putRow "employees" "1" otherHead, 0⟩, []⟩).1 := by
  have hemployees : staff.schema.resource? employees.name = some employees := by decide +kernel
  have hrequired : ∀ name r, staff.schema.resource? name = some r →
      ∃ p, staff.required (asUser 2) r = .ok p := by
    intro name r hr
    cases (resource_staff hr).2
    exact ⟨some ownTeam, required_staff⟩
  have hfiled : (staffTables employeeRows).Filed staff.schema := filed_staffTables (by decide +kernel)
  have hother : ((staffTables employeeRows).putRow "employees" "1" otherHead).Filed staff.schema := by
    refine hfiled.putRow fun r hr => ?_
    cases (resource_staff hr).2
    exact ⟨⟨[.int 1]⟩, rfl, rfl⟩
  exact Service.reads_eq_of_sameVisible staffService (asUser 2) employees
    (d := ⟨⟨staffTables employeeRows, 0⟩, []⟩)
    (e := ⟨⟨(staffTables employeeRows).putRow "employees" "1" otherHead, 0⟩, []⟩) hemployees hrequired
    hfiled hother (sameVisible_putRow otherHead_hidden) withManagers

end Music

end NestedResources
