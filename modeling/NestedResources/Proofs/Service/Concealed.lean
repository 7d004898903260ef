import NestedResources.Proofs.Read.Concealed
import NestedResources.Proofs.Service.Reads

/-!
# Write-only values do not show

Two states of the tables that differ in concealed columns alone are blanked to the same tables. Every
request that reads answers from what blanking leaves, so it answers the same on both
(`Service.reads_eq_of_sameShown`).
-/
namespace NestedResources

namespace Tables

/-- The rows of a table without the concealed columns of its resource. -/
def blankTable (s : Schema) (name : String) (rows : Dict Record) : Dict Record :=
  match s.resource? name with
  | some r => rows.map (r.blank s)
  | none => rows

/-- Tables without the concealed columns of their rows. -/
def blank (s : Schema) (t : Tables) : Tables where
  rows := ⟨t.rows.entries.map fun e => (e.1, blankTable s e.1 e.2), t.rows.ordered.map (blankTable s)⟩
  links := t.links

theorem blanks_blank (s : Schema) (t : Tables) : t.Blanks s (t.blank s) where
  links _ := rfl
  rows name r hr := by
    have hget : (t.blank s).rows.get? name = (t.rows.get? name).map (Dict.map (r.blank s)) := by
      have hblank : blankTable s name = Dict.map (r.blank s) := by
        funext rows
        rw [blankTable, hr]
      exact hblank ▸ Entries.get?_map_values (blankTable s) t.rows.entries name
    rw [table, table, hget]
    cases t.rows.get? name <;> rfl

/-- The same links, and rows under the same keys that agree in every column but the concealed ones. -/
structure SameShown (s : Schema) (t u : Tables) : Prop where
  links : ∀ name, t.linksOf name = u.linksOf name
  rows : ∀ name r key, s.resource? name = some r → Option.Rel
    (fun row other => ∀ column, s.conceals r column = false → row.get? column = other.get? column)
    (t.rowAt? name key) (u.rowAt? name key)

/-- States that agree in all that is shown are blanked to the same tables. -/
theorem SameShown.blanks {s : Schema} {t u : Tables} (h : t.SameShown s u) : u.Blanks s (t.blank s) where
  links name := (h.links name ▸ rfl : t.linksOf name = u.linksOf name)
  rows name r hr := by
    rw [(blanks_blank s t).rows name r hr]
    ext1 key
    rw [Dict.get?_map, Dict.get?_map]
    change (t.rowAt? name key).map (r.blank s) = (u.rowAt? name key).map (r.blank s)
    have hrow := h.rows name r key hr
    generalize t.rowAt? name key = row, u.rowAt? name key = other at hrow
    cases hrow with
    | none => rfl
    | some hsame => rw [Option.map_some, Option.map_some, Resource.blank_eq_iff.2 hsame]

end Tables

namespace Registry

variable {g : Registry} {ctx : Context} {r : Resource} {t u v : Tables} {q : Query} {es : Embeds}
  {scope : Option Predicate} {reading : Reading}

theorem map_render_blank (hsingle : g.schema.SingleNames) (hr : g.schema.resource? r.name = some r)
    (style : RenderStyle) (selection : Selection) (rows : List Row) :
    (rows.map (Row.blank g.schema r)).map (Row.render g.schema style r selection)
      = rows.map (Row.render g.schema style r selection) := by
  rw [List.map_map]
  exact List.map_congr_left fun row _ => Row.render_blank style hsingle hr selection row

/-- A page of blanked tables is the page of the tables. -/
theorem collection_blank (hsingle : g.schema.SingleNames) (h : t.Blanks g.schema v)
    (hr : g.schema.resource? r.name = some r) (hof : g.ReadingOf ctx r q es scope reading)
    (hscope : ∀ p ∈ scope, p.KeepsOff g.schema r) (style : RenderStyle) :
    reading.collection v g.schema style = reading.collection t g.schema style := by
  obtain ⟨p, hp, hpredicate⟩ := hof.restricted_eq
  have hcount : v.count g.schema reading.resource.name reading.fetch.predicate
      = t.count g.schema reading.resource.name reading.fetch.predicate := by
    refine h.count_eq fun found hfound => ?_
    rw [hof.resource_eq, hr] at hfound
    cases hfound
    exact hpredicate ▸ Predicate.keepsOff_conjoin (keepsOff_restricted hr hp) hscope
  rw [Reading.collection, Reading.collection, rows_blank h hr hof hscope, Except.bind_map, hcount]
  refine Except.bind_congr fun rows _ => Except.bind_congr fun available _ => ?_
  rw [hof.resource_eq, map_render_blank hsingle hr]

theorem first_blank (hsingle : g.schema.SingleNames) (h : t.Blanks g.schema v)
    (hr : g.schema.resource? r.name = some r) (hof : g.ReadingOf ctx r q es scope reading)
    (hscope : ∀ p ∈ scope, p.KeepsOff g.schema r) (style : RenderStyle) :
    reading.first v g.schema style = reading.first t g.schema style := by
  rw [Reading.first, Reading.first, rows_blank h hr hof hscope, Except.bind_map]
  refine Except.bind_congr fun rows _ => congrArg Except.ok ?_
  rw [hof.resource_eq]
  cases rows with
  | nil => rfl
  | cons row rows => exact congrArg some (Row.render_blank style hsingle hr reading.selection row)

/-- Whether anything is found does not depend on concealed columns. -/
theorem isEmpty_rows_blank (h : t.Blanks g.schema v) (hr : g.schema.resource? r.name = some r)
    (hof : g.ReadingOf ctx r q es scope reading) (hscope : ∀ p ∈ scope, p.KeepsOff g.schema r) :
    (reading.rows v g.schema).map List.isEmpty = (reading.rows t g.schema).map List.isEmpty := by
  rw [rows_blank h hr hof hscope]
  cases reading.rows t g.schema with
  | error e => rfl
  | ok rows => cases rows <;> rfl

end Registry

namespace Serving

variable {α β : Type}

/-- A step that only reads, and answers the same on two desks. -/
def AnswersAlike (m : Serving α) (d e : Desk) : Prop :=
  ∃ answer, m.on d = (answer, d) ∧ m.on e = (answer, e)

namespace AnswersAlike

variable {m : Serving α} {f : α → Serving β} {d e : Desk}

theorem answer_eq (h : AnswersAlike m d e) : (m.on d).1 = (m.on e).1 := by
  obtain ⟨answer, hd, he⟩ := h
  rw [hd, he]

theorem pure (a : α) : AnswersAlike (Pure.pure a) d e := ⟨.ok a, rfl, rfl⟩

theorem throw (error : Error) : AnswersAlike (MonadExcept.throw error : Serving α) d e :=
  ⟨.error error, rfl, rfl⟩

theorem bind (hm : AnswersAlike m d e) (hf : ∀ a, AnswersAlike (f a) d e) : AnswersAlike (m >>= f) d e := by
  obtain ⟨answer, hd, he⟩ := hm
  cases answer with
  | error error => exact ⟨.error error, by rw [bind_on, hd], by rw [bind_on, he]⟩
  | ok a =>
    obtain ⟨next, hnextd, hnexte⟩ := hf a
    exact ⟨next, by rw [bind_on, hd]; exact hnextd, by rw [bind_on, he]; exact hnexte⟩

/-- A computation without the desk, and what goes on from what it gives. -/
theorem liftM_bind {x : Except Error α} (hf : ∀ a, x = .ok a → AnswersAlike (f a) d e) :
    AnswersAlike (liftM x >>= f) d e := by
  cases x with
  | error error => exact ⟨.error error, by rw [bind_on, liftM_on], by rw [bind_on, liftM_on]⟩
  | ok a =>
    obtain ⟨next, hd, he⟩ := hf a rfl
    exact ⟨next, by rw [bind_on, liftM_on]; exact hd, by rw [bind_on, liftM_on]; exact he⟩

end AnswersAlike

end Serving

namespace Service

open Serving (AnswersAlike)

variable {svc : Service} {ctx : Context} {r : Resource} {q : Query} {scope : Option Predicate} {d e : Desk}

/-- Two desks whose tables differ in concealed columns alone, where the relationships of every resource
have names of their own. -/
structure SameShown (svc : Service) (d e : Desk) : Prop where
  single : svc.schema.SingleNames
  tables : d.store.tables.SameShown svc.schema e.store.tables

theorem SameShown.collection (h : svc.SameShown d e) (hr : svc.schema.resource? r.name = some r)
    (hscope : ∀ p ∈ scope, p.KeepsOff svc.schema r) :
    AnswersAlike (svc.collection ctx r q scope) d e := by
  refine ⟨_, svc.collection_on ctx r q scope d, ?_⟩
  rw [collection_on]
  refine Prod.ext (Except.bind_congr fun reading hreading => ?_) rfl
  obtain ⟨_, -, hrest⟩ := Except.bind_eq_ok.1 hreading
  obtain ⟨es, hes, -⟩ := Except.bind_eq_ok.1 hrest
  have hof := Registry.readingOf_of_reading hr hes hreading
  have hd := Registry.collection_blank h.single (Tables.blanks_blank svc.schema d.store.tables) hr hof hscope
    svc.style
  exact (Registry.collection_blank h.single h.tables.blanks hr hof hscope svc.style).symm.trans hd

theorem SameShown.first (h : svc.SameShown d e) (hr : svc.schema.resource? r.name = some r)
    (hscope : ∀ p ∈ scope, p.KeepsOff svc.schema r) : AnswersAlike (svc.first ctx r q scope) d e := by
  refine ⟨_, svc.first_on ctx r q scope d, ?_⟩
  rw [first_on]
  refine Prod.ext (Except.bind_congr fun reading hreading => ?_) rfl
  obtain ⟨_, -, hrest⟩ := Except.bind_eq_ok.1 hreading
  obtain ⟨es, hes, -⟩ := Except.bind_eq_ok.1 hrest
  have hof := Registry.readingOf_of_reading hr hes hreading
  have hd := Registry.first_blank h.single (Tables.blanks_blank svc.schema d.store.tables) hr hof hscope
    svc.style
  exact (Registry.first_blank h.single h.tables.blanks hr hof hscope svc.style).symm.trans hd

theorem SameShown.ensureVisible (h : svc.SameShown d e) (hr : svc.schema.resource? r.name = some r)
    (i : Identity) : AnswersAlike (svc.ensureVisible ctx r i) d e := by
  have hon : ∀ d, (svc.ensureVisible ctx r i).on d = (do
      let reading ← svc.reading ctx r { window := firstOnly } (some (.identity r i))
      let empty ← (reading.rows d.store.tables svc.schema).map List.isEmpty
      if empty then throw (.notFound r.name i.key), d) := by
    intro d
    unfold Service.ensureVisible
    rw [Serving.bind_on, rows_on]
    cases svc.reading ctx r { window := firstOnly } (some (.identity r i)) with
    | error error => rfl
    | ok reading =>
      dsimp only [Bind.bind, Except.bind]
      cases reading.rows d.store.tables svc.schema with
      | error error => rfl
      | ok rows => cases rows <;> rfl
  refine ⟨_, hon d, ?_⟩
  rw [hon]
  refine Prod.ext (Except.bind_congr fun reading hreading => ?_) rfl
  obtain ⟨_, -, hrest⟩ := Except.bind_eq_ok.1 hreading
  obtain ⟨es, hes, -⟩ := Except.bind_eq_ok.1 hrest
  have hof := Registry.readingOf_of_reading hr hes hreading
  have hscope : ∀ p ∈ some (Predicate.identity r i), p.KeepsOff svc.schema r := by
    rintro p ⟨⟩
    exact Predicate.keepsOff_identity svc.schema r i
  have hd := Registry.isEmpty_rows_blank (Tables.blanks_blank svc.schema d.store.tables) hr hof hscope
  exact congrArg (· >>= _) ((Registry.isEmpty_rows_blank h.tables.blanks hr hof hscope).symm.trans hd)

/-- The members of a relationship are told by identities alone. -/
theorem keepsOff_membership (hr : svc.schema.resource? r.name = some r) {rel : Relationship}
    {target : Resource} {name : String} (hrelated : svc.related r name = .ok (rel, target)) (i : Identity) :
    ∀ p ∈ some (membership r i rel), p.KeepsOff svc.schema target := by
  obtain ⟨hrel, htarget⟩ := related_eq_ok hrelated
  rintro p ⟨⟩ parent other hparent hother
  cases hparent.symm.trans hr
  rw [Resource.name_of_relationship? hrel] at hother
  cases hother.symm.trans hrel
  exact (Schema.name_of_resource? htarget).symm

namespace SameShown

variable (h : svc.SameShown d e) (hr : svc.schema.resource? r.name = some r)

include h hr

theorem list (params : Params) : AnswersAlike (svc.list ctx r params) d e :=
  .liftM_bind fun _ _ => .liftM_bind fun _ _ => h.collection hr (by simp)

theorem fetchOne (i : Identity) : AnswersAlike (svc.fetchOne ctx r i q) d e := by
  refine h.first hr ?_
  rintro p ⟨⟩
  exact Predicate.keepsOff_identity svc.schema r i

theorem getEntity (i : Identity) (params : Params) : AnswersAlike (svc.getEntity ctx r i params) d e := by
  refine .liftM_bind fun _ _ => .liftM_bind fun q _ => .bind (h.fetchOne hr i) fun entity => ?_
  cases entity with
  | none => exact .throw _
  | some entity => exact .pure entity

theorem getField (i : Identity) (field : String) : AnswersAlike (svc.getField ctx r i field) d e := by
  refine .liftM_bind fun _ _ => ?_
  split
  · exact .throw _
  · refine .bind (h.fetchOne hr i) fun entity => ?_
    cases entity with
    | none => exact .throw _
    | some entity => exact .pure _

theorem listRelated (i : Identity) (relationship : String) (params : Params) :
    AnswersAlike (svc.listRelated ctx r i relationship params) d e := by
  refine .liftM_bind fun _ _ => .liftM_bind fun (rel, target) hrelated => .liftM_bind fun _ _ => ?_
  refine .bind (h.ensureVisible hr i) fun _ => .liftM_bind fun q _ => ?_
  exact h.collection (Schema.resource?_of_target? (related_eq_ok hrelated).2)
    (keepsOff_membership hr hrelated i)

theorem getRelatedOne (i : Identity) (relationship : String) (params : Params) :
    AnswersAlike (svc.getRelatedOne ctx r i relationship params) d e := by
  refine .liftM_bind fun _ _ => .liftM_bind fun (rel, target) hrelated => .liftM_bind fun _ _ => ?_
  refine .bind (h.ensureVisible hr i) fun _ => .liftM_bind fun q _ => ?_
  refine .bind (h.first (Schema.resource?_of_target? (related_eq_ok hrelated).2)
    (keepsOff_membership hr hrelated i)) fun found => .pure _

end SameShown

/-- Write-only values do not influence what is read. On two desks whose tables differ in concealed columns
alone, every request that reads answers the same or fails with the same error, whatever its parameters are
and however entities are rendered. -/
theorem reads_eq_of_sameShown (h : svc.SameShown d e) (hr : svc.schema.resource? r.name = some r)
    (ctx : Context) :
    (∀ params, ((svc.list ctx r params).on d).1 = ((svc.list ctx r params).on e).1) ∧
      ∀ i, (∀ params, ((svc.getEntity ctx r i params).on d).1 = ((svc.getEntity ctx r i params).on e).1) ∧
        (∀ field, ((svc.getField ctx r i field).on d).1 = ((svc.getField ctx r i field).on e).1) ∧
        ∀ relationship params,
          ((svc.listRelated ctx r i relationship params).on d).1
              = ((svc.listRelated ctx r i relationship params).on e).1 ∧
            ((svc.getRelatedOne ctx r i relationship params).on d).1
              = ((svc.getRelatedOne ctx r i relationship params).on e).1 :=
  ⟨fun params => (h.list hr params).answer_eq, fun i => ⟨fun params => (h.getEntity hr i params).answer_eq,
    fun field => (h.getField hr i field).answer_eq, fun relationship params =>
      ⟨(h.listRelated hr i relationship params).answer_eq,
        (h.getRelatedOne hr i relationship params).answer_eq⟩⟩⟩

end Service

namespace Music

/-- Employees with a number that opens doors, which is written and never read. -/
def keyed : Resource :=
  { employees with fields := employees.fields ++ [{ name := "pin", writeOnly := true }] }

def keyedService : Service where
  registry := { staff with
    schema := {
      table := .ofList [("employees", keyed)]
      named := by decide +kernel
      faultless := by decide +kernel } }
  style := { links := true }

def pinned (pin : String) : Desk :=
  ⟨⟨(staffTables employeeRows).putRow "employees" "2" (second.record.insert "pin" (.str pin)), 0⟩, []⟩

theorem resource_keyed {name : String} {r : Resource} (h : keyedService.schema.resource? name = some r) :
    r = keyed := by
  simp only [Schema.resource?, Service.schema, keyedService, Dict.get?, Dict.ofList, Entries.ofList,
    List.foldl_cons, List.foldl_nil, Entries.insert, Entries.get?] at h
  split at h
  · exact (Option.some.inj h).symm
  · cases h

theorem sameShown_pinned (pin other : String) : keyedService.SameShown (pinned pin) (pinned other) where
  single name r hr := by
    cases resource_keyed hr
    decide +kernel
  tables := by
    refine ⟨fun name => (Tables.linksOf_putRow ..).trans (Tables.linksOf_putRow ..).symm,
      fun name r key hr => ?_⟩
    cases resource_keyed hr
    rw [pinned, pinned, Tables.rowAt?_putRow, Tables.rowAt?_putRow]
    split
    · refine .some fun column hshown => ?_
      have hpin : column ≠ "pin" := by
        rintro rfl
        exact absurd hshown (by decide +kernel)
      rw [Dict.get?_insert_of_ne _ hpin, Dict.get?_insert_of_ne _ hpin]
    · generalize (staffTables employeeRows).rowAt? name key = row
      cases row with
      | none => exact .none
      | some row => exact .some fun _ _ => rfl

/-- Managers with their reports, both by last name. -/
def teams : Params := ⟨[("embeds", "reports"), ("reports._sorts_", "last_name"), ("sort", "-last_name")]⟩

theorem reads_eq_pinned :
    ((keyedService.list (asUser 2) keyed teams).on (pinned "1234")).1
        = ((keyedService.list (asUser 2) keyed teams).on (pinned "9876")).1 ∧
      ((keyedService.getRelatedOne (asUser 2) keyed ⟨[.int 2]⟩ "manager" .empty).on (pinned "1234")).1
        = ((keyedService.getRelatedOne (asUser 2) keyed ⟨[.int 2]⟩ "manager" .empty).on (pinned "9876")).1 := by
  have hkeyed : keyedService.schema.resource? keyed.name = some keyed := by decide +kernel
  obtain ⟨hlist, hentity⟩ :=
    Service.reads_eq_of_sameShown (sameShown_pinned "1234" "9876") hkeyed (asUser 2)
  exact ⟨hlist teams, ((hentity ⟨[.int 2]⟩).2.2 "manager" .empty).2⟩

end Music

end NestedResources
