import NestedResources.Proofs.Service.NonInterference
import NestedResources.Proofs.Service.RelationshipUpdate
import NestedResources.Proofs.Write.Rendered

/-!
# Documents that are written back

An entity is read with its embeds, as deep as they go, and the document is written back as it is. This writes
nothing and answers the same document (`Service.update_rendered`): the walk recognises its own output.
-/
namespace NestedResources

/-- A query for whole entities with embeds that are plain. -/
structure Query.Plain (q : Query) (s : Schema) (r : Resource) : Prop where
  fields : q.fields = []
  filter : q.filter = none
  sorts : q.sorts = []
  embeds : ∀ e ∈ q.embeds.list, e.Plain s r

namespace Registry.IsOpen

variable {g : Registry} (h : g.IsOpen)
include h

/-- Every row is seen. -/
theorem sees (ctx : Context) (t : Tables) (levels : Nat) (r : Resource) (record : Record) :
    g.sees ctx t (fun _ _ => true) levels r record = true := by
  cases levels with
  | zero => rfl
  | succ levels =>
    have hnone : (g.gate r.name).required r ctx = none := (h.gateWithRef r.name).required r ctx
    rw [Registry.sees, hnone]
    rfl

theorem restricted (ctx : Context) (r : Resource) : g.restricted ctx r none = .ok none :=
  Except.bind_eq_ok.2 ⟨none, rfl, Except.bind_eq_ok.2 ⟨none, h.required ctx r, rfl⟩⟩

/-- Plain queries compile. -/
theorem exists_reading (ctx : Context) {r : Resource} (hr : g.schema.resource? r.name = some r) {q : Query}
    {admits : Embed → Prop} (hsound : q.embeds.Sound admits) (hplain : q.Plain g.schema r)
    (scope : Option Predicate) : ∃ reading, g.reading ctx r.name q scope = .ok reading := by
  refine (exists_reading_iff hr hsound).2 ⟨⟨none, ?_⟩, ⟨[], ?_⟩, fun e he => ?_⟩
  · rw [hplain.filter]
    exact h.restricted ctx r
  · rw [hplain.sorts]
    rfl
  · obtain ⟨hfields, hfilter, hunscoped, parent, rel, target, hat, hstep, -⟩ := hplain.embeds e he
    refine ⟨parent, target, rel, none, [], hat, hstep, ?_, ?_⟩
    · rw [hfilter]
      exact h.restricted ctx target
    · rw [(Embed.isScoped_eq_false hunscoped).1]
      rfl

end Registry.IsOpen

/-- A list that holds one item only, if any, starts with it. -/
theorem List.head?_of_forall_eq {α : Type} {items : List α} {a : α} (hmem : a ∈ items)
    (h : ∀ b ∈ items, b = a) : items.head? = some a := by
  cases items with
  | nil => cases hmem
  | cons b rest => rw [List.head?_cons, h b List.mem_cons_self]

namespace Query

variable {q : Query} {t : Tables} {s : Schema} {sees : Resource → Record → Bool} {r : Resource} {i : Identity}
  {record : Record}

theorem Plain.whole (h : q.Plain s r) : Plain { q with window := .unbounded } s r :=
  ⟨h.fields, h.filter, h.sorts, h.embeds⟩

/-- A plain query for an entity selects its row. -/
theorem Plain.head?_selected (h : q.Plain s r) (hwindow : q.window = .unbounded)
    (hsees : ∀ r record, sees r record = true) (hexact : t.Exact s) (hr : s.resource? r.name = some r)
    (hstores : t.Stores r i record) :
    (q.selected t s sees r (some (.identity r i))).head? = some record := by
  obtain ⟨htypes, hfiled⟩ := hexact r hr
  have hmem : ∀ row, row ∈ q.selected t s sees r (some (.identity r i)) ↔
      row ∈ t.rowsOf r.name ∧ t.passes s r (some (.identity r i)) row = true := fun row => by
    rw [selected, hwindow, Window.apply_unbounded, Sorting.mem_sort, matching, List.mem_filter, h.filter,
      hsees]
    simp
  refine List.head?_of_forall_eq ((hmem record).2 ⟨hstores.mem_rowsOf, ?_⟩) fun row hrow => ?_
  · exact (hstores.passes_identity_iff htypes hfiled s hstores.mem_rowsOf).2 rfl
  · obtain ⟨hrows, hpasses⟩ := (hmem row).1 hrow
    exact (hstores.passes_identity_iff htypes hfiled s hrows).1 hpasses

end Query

namespace Service

variable {svc : Service} {r : Resource} {i : Identity} {record : Record} {q : Query} {params : Params}
  {t : Tables} {d : Desk}

/-- A row with its embeds, where every row is seen. -/
def document (svc : Service) (ctx : Context) (t : Tables) (r : Resource) (es : Embeds) (record : Record) :
    Json :=
  Row.render svc.schema svc.style r (.ofQuery [] es) (es.nested t svc.schema
    (svc.registry.sees ctx t (fun _ _ => true) (requiredDepth + 1)) r [] record)

section

variable (ctx : Context) (hopen : svc.registry.IsOpen)
  (hlegible : ∀ r, svc.schema.resource? r.name = some r → r.Legible) (hvalid : t.Valid svc.schema)
  (hr : svc.schema.resource? r.name = some r) (hstores : t.Stores r i record)
include hopen

theorem ensureAllowed_eq_ok (r : Resource) (m : Method) : svc.ensureAllowed ctx r m = .ok () :=
  if_pos ((hopen.gateWithRef r.name).allows r m ctx)

include hlegible hvalid hr hstores

/-- A stored entity is found and rendered. -/
theorem fetchOne_eq (hsound : q.embeds.Sound (Embed.Admitted svc.schema r)) (hplain : q.Plain svc.schema r)
    (hwindow : q.window = .unbounded) (ht : d.store.tables = t) :
    (svc.fetchOne ctx r i q).on d = (.ok (some (svc.document ctx t r q.embeds record)), d) := by
  obtain ⟨reading, hreading⟩ := hopen.exists_reading ctx hr hsound hplain (some (.identity r i))
  have hof := Registry.readingOf_of_reading hr hsound.validate hreading
  have hfirst := Registry.first_eq t (fun _ _ => true) (Nat.lt_succ_self requiredDepth) hvalid.filed hr hsound
    hof svc.style
  have hselected := hplain.head?_selected hwindow (hopen.sees ctx t (requiredDepth + 1))
    (hvalid.exact hlegible) hr hstores
  have hread : svc.reading ctx r q (some (.identity r i)) = .ok reading := hreading
  rw [fetchOne_on, hread, ht]
  change (reading.first t svc.registry.schema svc.style, d) = _
  rw [hfirst, List.head?_map, hplain.fields]
  exact congrArg (fun found : Option Record => (Except.ok ((found.map _).map _), d)) hselected

/-- Reading an entity with a plain query answers its document. -/
theorem getEntity_eq (hq : svc.readQuery r params = .ok q) (hplain : q.Plain svc.schema r)
    (ht : d.store.tables = t) :
    (svc.getEntity ctx r i params).on d = (.ok (svc.document ctx t r q.embeds record), d) := by
  have hfound := fetchOne_eq ctx hopen hlegible hvalid hr hstores (q := { q with window := .unbounded })
    (QuerySite.sound_read hq) hplain.whole rfl ht
  unfold getEntity
  rw [Serving.bind_on, Serving.liftM_on, ensureAllowed_eq_ok ctx hopen]
  dsimp only
  rw [Serving.bind_on, Serving.liftM_on, hq]
  dsimp only
  rw [Serving.bind_on, hfound]
  rfl

omit hopen hvalid hstores in
/-- The document of an entity is an object with its rendered fields. -/
theorem exists_members_document (es : Embeds) (record : Record) : ∃ members,
    svc.document ctx t r es record = .obj members ∧
      ∀ f ∈ r.fields, f.isRendered = true → Entries.get? f.name members = some (f.valueIn record) := by
  rw [document, Row.render_eq, Embeds.record_nested]
  exact Resource.exists_members_renderEntity hr (hlegible r hr) svc.style
    (Selection.fields_ofEmbeds es es.height [] []) record _

/-- The document of an entity says what is stored. -/
theorem echoes_document (hsound : q.embeds.Sound (Embed.Admitted svc.schema r))
    (hplain : q.Plain svc.schema r) :
    Echoes t svc.schema r record (svc.document ctx t r q.embeds record) :=
  Embeds.echoes_render hlegible hvalid (hopen.sees ctx t (requiredDepth + 1)) hr hsound.single hplain.embeds
    q.embeds.height (show svc.schema.at? r [] = some r from rfl) hstores.mem_rowsOf

/-- Committing the document of an entity writes nothing. A replacement has to be given its required fields. -/
theorem commit_document (hsound : q.embeds.Sound (Embed.Admitted svc.schema r))
    (hplain : q.Plain svc.schema r) {mode : WriteMode}
    (hmode : mode = .replace → ∀ f ∈ r.fields, f.requiredOnInput = true → f.isRendered = true)
    (ht : d.store.tables = t) :
    ∃ o after, (svc.commit ctx (·.update r.name i (svc.document ctx t r q.embeds record) mode)).on d =
      (.ok o, after) ∧ o.writes = 0 ∧ after.store = d.store := by
  subst ht
  have hechoes := echoes_document ctx hopen hlegible hvalid hr hstores hsound hplain
  obtain ⟨members, hdocument, hgiven⟩ := exists_members_document ctx hlegible hr q.embeds record
  rw [hdocument] at hechoes ⊢
  obtain ⟨w, hrun, hidle⟩ := WalkSite.update_echo ⟨svc.registry, ctx, d.store.tables⟩ hopen
    (hvalid.exact hlegible) hr hstores hechoes fun hreplace f hf hrequired =>
      Option.isSome_of_eq_some (hgiven f hf (hmode hreplace f hf hrequired))
  refine ⟨_, _, Serving.commit_of_plan hrun hidle.issues (p := { store := d.store }) ?_ rfl, rfl, rfl⟩
  rw [hidle.plan]
  rfl

end

/-- An entity is read and its document written back. Every gate lets everything through; relationships have
names of their own, no field goes by a key that documents reserve and no relationship by the one for ops; rows
are under their own keys, their identities are rendered and exact, and the fields accept the values that are
rendered. Then the entity is found, whatever its plain embeds are and whether it is rendered with links, and
updating it with the document succeeds, writes nothing, leaves the store as it was, and answers the document.
So does a replacement, if the required fields are rendered. -/
theorem update_document (svc : Service) (ctx : Context) (hopen : svc.registry.IsOpen)
    (hlegible : ∀ r, svc.schema.resource? r.name = some r → r.Legible)
    (hvalid : d.store.tables.Valid svc.schema) (hr : svc.schema.resource? r.name = some r)
    (hstores : d.store.tables.Stores r i record) (hq : svc.readQuery r params = .ok q)
    (hplain : q.Plain svc.schema r) (mode : WriteMode)
    (hmode : mode = .replace → ∀ f ∈ r.fields, f.requiredOnInput = true → f.isRendered = true) :
    ∃ document o after, (svc.getEntity ctx r i params).on d = (.ok document, d) ∧
      (svc.commit ctx (·.update r.name i document mode)).on d = (.ok o, after) ∧ o.writes = 0 ∧
      after.store = d.store ∧ (svc.update ctx r i document mode params).on d = (.ok document, after) := by
  have hsound : q.embeds.Sound (Embed.Admitted svc.schema r) := QuerySite.sound_read hq
  obtain ⟨o, after, hcommit, hwrites, hstore⟩ :=
    commit_document ctx hopen hlegible hvalid hr hstores hsound hplain hmode rfl
  refine ⟨_, o, after, getEntity_eq ctx hopen hlegible hvalid hr hstores hq hplain rfl, hcommit, hwrites,
    hstore, ?_⟩
  have hagain := fetchOne_eq ctx hopen hlegible hvalid hr hstores (q := { q with window := .unbounded })
    hsound hplain.whole rfl (congrArg Store.tables hstore)
  unfold update
  rw [Serving.bind_on, Serving.liftM_on, ensureAllowed_eq_ok ctx hopen]
  dsimp only
  rw [Serving.bind_on, Serving.liftM_on, hq]
  dsimp only
  rw [Serving.bind_on, hcommit]
  dsimp only
  unfold reread
  rw [Serving.bind_on, hagain]
  rfl

end Service

namespace Music

theorem legible_employees : employees.Legible :=
  ⟨by decide +kernel, by decide +kernel, by decide +kernel, by decide +kernel, by decide +kernel⟩

theorem valid_staffDesk : staffDesk.store.tables.Valid openStaff.schema where
  filed := filed_staffTables (by decide +kernel)
  accepts := by
    have hall : ∀ record ∈ staffDesk.store.tables.rowsOf "employees", ∀ f ∈ employees.fields,
        f.isRendered = true → (f.check f.name (f.valueIn record)).toOption.any
          (fun u => (u.isNull || u.isExact) && u.same (f.valueIn record)) = true := by decide +kernel
    intro r hr record hrecord f hf hrendered
    obtain ⟨-, rfl⟩ := resource_staff hr
    exact Field.accepts_of_check (hall record hrecord f hf hrendered)

theorem plain_team : team.Plain openStaff.schema employees where
  fields := rfl
  filter := rfl
  sorts := rfl
  embeds := by
    intro e he
    have hleads : ∀ path ∈ team.embeds.paths, ∃ rel ∈ employees.relationships,
        openStaff.schema.at? employees path.dropLast = some employees ∧
          openStaff.schema.step? employees (path.getLastD "") = some (rel, employees) ∧
            rel.readOnly = false := by decide +kernel
    obtain ⟨rel, -, hat, hstep, hwritable⟩ := hleads e.path (List.mem_map_of_mem he)
    have hbare : ∀ e ∈ team.embeds.list, e.fields = [] ∧ e.filter.isNone = true ∧ e.isScoped = false := by
      decide +kernel
    obtain ⟨hfields, hfilter, hunscoped⟩ := hbare e he
    exact ⟨hfields, Option.isNone_iff_eq_none.1 hfilter, hunscoped, employees, rel, employees, hat, hstep,
      hwritable⟩

/-- The staff, open to everybody and rendered with links. -/
def linkedStaff : Service := { registry := openStaff, style := { links := true, urlStart := "/api" } }

/-- The second employee is replaced by herself, with her manager and her reports and again their manager. -/
theorem team_written_back : ∃ document o after,
    (linkedStaff.getEntity ⟨.empty⟩ employees ⟨[.int 2]⟩ teamParams).on staffDesk =
      (.ok document, staffDesk) ∧
    (linkedStaff.commit ⟨.empty⟩ (·.update "employees" ⟨[.int 2]⟩ document .replace)).on staffDesk =
      (.ok o, after) ∧ o.writes = 0 ∧ after.store = staffDesk.store ∧
    (linkedStaff.update ⟨.empty⟩ employees ⟨[.int 2]⟩ document .replace teamParams).on staffDesk =
      (.ok document, after) := by
  have hlegible : ∀ r, linkedStaff.schema.resource? r.name = some r → r.Legible := fun r hr =>
    (resource_staff hr).2 ▸ legible_employees
  exact Service.update_document linkedStaff ⟨.empty⟩ isOpen_openStaff hlegible valid_staffDesk
    (by decide +kernel) hosts_staffDesk.stores rfl plain_team .replace fun _ => by decide +kernel

/-- Employees whose managers go by the key under which documents keep their ops. -/
def managedByOp : Resource :=
  { employees with
    relationships := (employees.relationships.take 1).map fun rel =>
      { rel with name := DocumentOp.key, inverse := none } }

def opStaff : Service where
  registry := { openStaff with schema := {
    table := .ofList [("employees", managedByOp)]
    named := by decide +kernel
    faultless := by decide +kernel } }
  style := { links := true }

theorem resource_opStaff {name : String} {r : Resource} (h : opStaff.schema.resource? name = some r) :
    name = "employees" ∧ r = managedByOp := by
  have hmem := Dict.get?_eq_some_iff.1 h
  obtain h := List.mem_singleton.1 (show (name, r) ∈ [("employees", managedByOp)] from hmem)
  cases h
  exact ⟨rfl, rfl⟩

/-- A link under this key is taken for an op: the document is refused, although all else is in order. -/
theorem opLink_refused :
    ((managedByOp.relationships.map Relationship.name).Nodup ∧
      (∀ f ∈ managedByOp.fields, f.name ≠ DocumentOp.key ∧ f.name ≠ selfKey) ∧
      ∀ f ∈ managedByOp.identityFields, f.isRendered = true ∧ f.type.isExact = true) ∧
    opStaff.registry.IsOpen ∧ staffDesk.store.tables.Valid opStaff.schema ∧
    staffDesk.store.tables.Stores managedByOp ⟨[.int 2]⟩ employeeRows[1].record ∧
    ∃ document, (opStaff.getEntity ⟨.empty⟩ managedByOp ⟨[.int 2]⟩ ⟨[]⟩).on staffDesk =
        (.ok document, staffDesk) ∧
      (opStaff.update ⟨.empty⟩ managedByOp ⟨[.int 2]⟩ document .patch ⟨[]⟩).on staffDesk =
        (.error (.badRequest (.unknownOp "/employees/2/$op")), staffDesk) := by
  refine ⟨⟨by decide +kernel, by decide +kernel, by decide +kernel⟩,
    ⟨fun _ h => (by cases h), fun _ h => (by cases h)⟩, ⟨fun name key r record hr hrow => ?_,
      fun r hr record hrecord f hf hrendered => ?_⟩, ⟨hosts_staffDesk.relates.row, rfl⟩, _, rfl, rfl⟩
  · obtain ⟨rfl, rfl⟩ := resource_opStaff hr
    exact valid_staffDesk.filed "employees" key employees record (by decide +kernel) hrow
  · obtain ⟨-, rfl⟩ := resource_opStaff hr
    exact valid_staffDesk.accepts employees (by decide +kernel) record hrecord f hf hrendered

end Music

end NestedResources
