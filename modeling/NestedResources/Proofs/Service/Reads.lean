import NestedResources.Proofs.Read.Reading
import NestedResources.Proofs.Service.Serving

/-!
# What reading answers

Reading takes nothing but the tables and leaves the desk as it is. What compiles can be run, so reading
fails before it has looked at a row, or where an entity is not found.
-/
namespace NestedResources

namespace Registry

variable {g : Registry} {ctx : Context} {r : Resource}

theorem isEmpty_firstOnly (l : List Record) : (Service.firstOnly.apply l).isEmpty = l.isEmpty := by
  cases l <;> rfl

/-- Without anything but a window, a query finds the rows that pass the scope and what the gate requires,
in the order of their identities. -/
theorem exists_rows_window {name : String} {p : Option Predicate} (hr : g.schema.resource? name = some r)
    (hp : g.required ctx r = .ok p) (window : Window) (scope : Option Predicate) (t : Tables) :
    ∃ reading rows, g.reading ctx name { window } scope = .ok reading ∧
      reading.rows t g.schema = .ok rows ∧ rows.map Row.record =
        window.apply (Sorting.sort (Record.compare r []) ((t.rowsOf r.name).filter fun record =>
          t.passes g.schema r p record && t.passes g.schema r scope record)) := by
  have hlt : requiredDepth < requiredDepth + 1 := by decide
  obtain ⟨reading, hreading⟩ := exists_reading_window hr hp window scope
  have hes : Embeds.empty.validate = .ok .empty := rfl
  have hof := readingOf_of_reading hr hes hreading
  have hname := Schema.name_of_resource? hr
  have hfetch := fetch_eq t (fun _ _ => true) hlt (hname ▸ hr) hof
  have hnone : reading.scopedFetches = [] := (Except.ok.inj hof.fetches_eq).symm
  refine ⟨reading, _, hreading, Except.bind_eq_ok.2 ⟨_, hfetch, by rw [hnone]; rfl⟩, ?_⟩
  have hmatching : Query.matching { window } t g.schema
      (g.sees ctx t (fun _ _ => true) (requiredDepth + 1)) r scope
        = (t.rowsOf r.name).filter fun record =>
          t.passes g.schema r p record && t.passes g.schema r scope record := by
    refine List.filter_congr fun record _ => ?_
    rw [passes_required t (fun _ _ => true) hlt hr hp]
    rfl
  rw [Query.selected, hmatching, List.map_map]
  refine (List.map_congr_left fun record _ => ?_).trans (List.map_id _)
  simp

/-- The first row of a scope is found iff a row passes the scope and what the gate requires. -/
theorem exists_first_row {name : String} {p : Option Predicate} (hr : g.schema.resource? name = some r)
    (hp : g.required ctx r = .ok p) (scope : Option Predicate) (t : Tables) :
    ∃ reading rows, g.reading ctx name { window := Service.firstOnly } scope = .ok reading ∧
      reading.rows t g.schema = .ok rows ∧ rows.isEmpty = !(t.rowsOf r.name).any fun record =>
        t.passes g.schema r p record && t.passes g.schema r scope record := by
  obtain ⟨reading, rows, hreading, hrows, hrecords⟩ :=
    exists_rows_window hr hp Service.firstOnly scope t
  refine ⟨reading, rows, hreading, hrows, ?_⟩
  rw [← List.isEmpty_map, hrecords, isEmpty_firstOnly, (Sorting.sort_perm _ _).isEmpty_eq,
    Bool.eq_iff_iff, List.isEmpty_iff, List.filter_eq_nil_iff, Bool.not_eq_true', List.any_eq_false]

end Registry

namespace Service

theorem related_eq_ok {svc : Service} {r target : Resource} {name : String} {rel : Relationship}
    (h : svc.related r name = .ok (rel, target)) :
    r.relationship? name = some rel ∧ svc.schema.target? rel = some target := by
  unfold related at h
  split at h
  · cases h
  · rename_i found hfound
    obtain ⟨resource, hresource, hsame⟩ := Except.bind_eq_ok.1 h
    cases hsame
    exact ⟨hfound, Schema.require_eq_ok.1 hresource⟩

variable (svc : Service) (ctx : Context) (r : Resource)

theorem rows_on (q : Query) (scope : Option Predicate) (d : Desk) :
    (svc.rows ctx r q scope).on d = (do
      let reading ← svc.reading ctx r q scope
      reading.rows d.store.tables svc.schema, d) := by
  refine Serving.bind_on_of_reads (Serving.liftM_on _ d) fun reading => ?_
  exact Serving.bind_on_of_reads (Serving.tables_on d) fun t => Serving.liftM_on _ d

theorem collection_on (q : Query) (scope : Option Predicate) (d : Desk) :
    (svc.collection ctx r q scope).on d = (do
      let reading ← svc.reading ctx r q scope
      reading.collection d.store.tables svc.schema svc.style, d) := by
  refine Serving.bind_on_of_reads (Serving.liftM_on _ d) fun reading => ?_
  exact Serving.bind_on_of_reads (Serving.tables_on d) fun t => Serving.liftM_on _ d

theorem list_on (params : Params) (d : Desk) :
    (svc.list ctx r params).on d = (do
      svc.ensureAllowed ctx r .get
      let q ← svc.readQuery r params
      let reading ← svc.reading ctx r q none
      reading.collection d.store.tables svc.schema svc.style, d) := by
  refine Serving.bind_on_of_reads (Serving.liftM_on _ d) fun _ => ?_
  exact Serving.bind_on_of_reads (Serving.liftM_on _ d) fun q => svc.collection_on ctx r q none d

theorem first_on (q : Query) (scope : Option Predicate) (d : Desk) :
    (svc.first ctx r q scope).on d = (do
      let reading ← svc.reading ctx r q scope
      reading.first d.store.tables svc.schema svc.style, d) := by
  refine Serving.bind_on_of_reads (Serving.liftM_on _ d) fun reading => ?_
  exact Serving.bind_on_of_reads (Serving.tables_on d) fun t => Serving.liftM_on _ d

theorem fetchOne_on (i : Identity) (q : Query) (d : Desk) :
    (svc.fetchOne ctx r i q).on d = (do
      let reading ← svc.reading ctx r q (some (.identity r i))
      reading.first d.store.tables svc.schema svc.style, d) := svc.first_on ctx r q _ d

/-- An entity, or the error that it is not found. -/
def orNotFound (r : Resource) (i : Identity) : Option Json → Except Error Json
  | some entity => .ok entity
  | none => .error (.notFound r.name i.key)

theorem getEntity_on (i : Identity) (params : Params) (d : Desk) :
    (svc.getEntity ctx r i params).on d = (do
      svc.ensureAllowed ctx r .get
      let q ← svc.readQuery r params
      let reading ← svc.reading ctx r { q with window := .unbounded } (some (.identity r i))
      let entity ← reading.first d.store.tables svc.schema svc.style
      orNotFound r i entity, d) := by
  refine Serving.bind_on_of_reads (Serving.liftM_on _ d) fun _ => ?_
  refine Serving.bind_on_of_reads (Serving.liftM_on _ d) fun q => ?_
  rw [← bind_assoc]
  refine Serving.bind_on_of_reads (svc.fetchOne_on ctx r i _ d) fun entity => ?_
  cases entity <;> rfl

/-- What is run on the tables after a query has been compiled does not fail. -/
theorem bind_reading_eq_error_iff {α : Type} {q : Query} {scope : Option Predicate}
    {run : Reading → Except Error α} {t : Tables}
    (hrun : ∀ reading rows, svc.schema.resource? reading.resource.name = some reading.resource →
      reading.rows t svc.schema = .ok rows → ∃ a, run reading = .ok a) {e : Error} :
    svc.reading ctx r q scope >>= run = .error e ↔ svc.reading ctx r q none = .error e := by
  rw [Except.bind_eq_error]
  constructor
  · rintro (hreading | ⟨reading, hreading, herror⟩)
    · exact Registry.reading_eq_error_iff.1 hreading
    · obtain ⟨rows, hrows⟩ := Registry.exists_rows_of_reading t hreading
      obtain ⟨es, hr, -⟩ := Registry.exists_readingOf hreading
      obtain ⟨a, ha⟩ := hrun reading rows hr hrows
      cases ha.symm.trans herror
  · exact fun h => .inl (Registry.reading_eq_error_iff.2 h)

/-- Reading an entity fails iff its query does not compile. -/
theorem reads_fetchOne (i : Identity) (q : Query) (d : Desk) :
    (svc.fetchOne ctx r i q).Reads d fun e => svc.reading ctx r q none = .error e := by
  refine ⟨_, svc.fetchOne_on ctx r i q d, fun e => ?_⟩
  exact svc.bind_reading_eq_error_iff ctx r fun reading rows _ hrows =>
    Except.exists_bind_eq_ok hrows ⟨_, rfl⟩

theorem reads_reread (q : Query) (i : Identity) (d : Desk) :
    (svc.reread ctx r q i).Reads d fun e => svc.reading ctx r q none = .error e :=
  (svc.reads_fetchOne ctx r i q d).bind_pure _

theorem reads_collection (q : Query) (scope : Option Predicate) (d : Desk) :
    (svc.collection ctx r q scope).Reads d fun e => svc.reading ctx r q none = .error e := by
  refine ⟨_, svc.collection_on ctx r q scope d, fun e => ?_⟩
  refine svc.bind_reading_eq_error_iff ctx r fun reading rows hr hrows =>
    Except.exists_bind_eq_ok hrows ?_
  have hcount : ∃ n, d.store.tables.count svc.schema reading.resource.name reading.fetch.predicate = .ok n :=
    Except.exists_bind_eq_ok (Schema.require_eq_ok.2 hr) ⟨_, rfl⟩
  exact hcount.elim fun n hn => Except.exists_bind_eq_ok hn ⟨_, rfl⟩

/-! ## Members -/

/-- Whether an entity exists and its gate shows it. -/
def isVisible (i : Identity) (t : Tables) : Bool :=
  match svc.schema.resource? r.name with
  | none => false
  | some found => match svc.registry.required ctx found with
    | .error _ => false
    | .ok p => (t.rowsOf found.name).any fun record =>
      t.passes svc.schema found p record && t.passes svc.schema found (some (.identity r i)) record

/-- The error that an entity is not found, unless it is visible. -/
def requireVisible (i : Identity) (t : Tables) : Except Error Unit :=
  if svc.isVisible ctx r i t then .ok () else .error (.notFound r.name i.key)

/-- What is asked before the members of an entity are listed. -/
def listing (i : Identity) (relationship : String) (params : Params) (t : Tables) :
    Except Error Reading := do
  svc.ensureAllowed ctx r .get
  let (_, target) ← svc.related r relationship
  svc.ensureAllowed ctx target .get
  svc.requireVisible ctx r i t
  let q ← svc.readQuery target params
  svc.reading ctx target q none

variable {found : Resource} {p : Option Predicate}

theorem ensureVisible_on (hr : svc.schema.resource? r.name = some found)
    (hp : svc.registry.required ctx found = .ok p) (i : Identity) (d : Desk) :
    (svc.ensureVisible ctx r i).on d = (svc.requireVisible ctx r i d.store.tables, d) := by
  obtain ⟨reading, rows, hreading, hrows, hempty⟩ :=
    Registry.exists_first_row hr hp (some (.identity r i)) d.store.tables
  have hvisible : svc.isVisible ctx r i d.store.tables = !rows.isEmpty := by
    rw [hempty, Bool.not_not]
    simp only [isVisible, hr, hp]
    rfl
  have hfound : (svc.reading ctx r { window := firstOnly } (some (.identity r i)) >>= fun reading =>
      reading.rows d.store.tables svc.schema) = .ok rows :=
    Except.bind_eq_ok.2 ⟨reading, hreading, hrows⟩
  unfold ensureVisible
  rw [Serving.bind_on, rows_on, hfound, requireVisible, hvisible]
  cases rows <;> rfl

theorem reads_listRelated (hr : svc.schema.resource? r.name = some found)
    (hp : svc.registry.required ctx found = .ok p) (i : Identity) (relationship : String)
    (params : Params) (d : Desk) :
    (svc.listRelated ctx r i relationship params).Reads d fun e =>
      svc.listing ctx r i relationship params d.store.tables = .error e := by
  refine .bind (Serving.liftM_on _ d) fun _ => ?_
  refine .bind (Serving.liftM_on _ d) fun (rel, target) => ?_
  refine .bind (Serving.liftM_on _ d) fun _ => ?_
  refine .bind (svc.ensureVisible_on ctx r hr hp i d) fun _ => ?_
  refine .bind (Serving.liftM_on _ d) fun q => ?_
  exact svc.reads_collection ctx target q _ d

end Service

end NestedResources
