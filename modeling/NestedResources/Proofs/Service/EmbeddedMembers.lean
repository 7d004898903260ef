import NestedResources.Proofs.Query.Directives
import NestedResources.Proofs.Service.Batch
import NestedResources.Proofs.Service.Routing
import NestedResources.Proofs.Store.Scanned
import NestedResources.Proofs.Write.Pinpoint
import NestedResources.Proofs.Write.Rendered

/-!
# Members embedded and members listed

A relationship of an entity is read in two ways: embedded in the entity, where the members are found from
its row, and by itself, where the rows of the target are scanned for members. Given the same directives,
both show the same members in the same order (`Service.embedded_eq_listed`).
-/
namespace NestedResources

/-! ## Filters joined -/

namespace Filter

variable {t : Tables} {schema : Schema} {sees : Resource → Record → Bool} {r : Resource} {record : Record}

theorem all_holds_conjoinAll (pieces : List Filter) :
    (conjoinAll pieces).all (holds t schema sees r record) = pieces.all (holds t schema sees r record) := by
  induction pieces using List.reverseRecOn with
  | nil => rfl
  | append_singleton pieces piece ih => simp [conjoinAll_concat, all_holds_conjoin, ih]

/-- The flat filters of a listing are joined. -/
theorem all_holds_readFilter {site : QuerySite} {pieces : List Filter} {f : Option Filter}
    (h : site.readFilter r pieces [] = .ok f) :
    f.all (holds t schema sees target record) = pieces.all (holds t schema sees target record) := by
  obtain ⟨filter, hfilter, h⟩ := Except.bind_eq_ok.1 h
  cases hfilter
  match pieces with
  | [] =>
    cases h
    rfl
  | [only] =>
    dsimp only at h
    split at h
    · cases h
    · cases h
      simp
  | first :: second :: rest =>
    dsimp only at h
    split at h
    · cases h
    · cases h
      simp [holds, holdsAll_eq_all]

end Filter

/-! ## What an entity carries for a relationship -/

/-- An embedded relationship is rendered under its name, over anything else of that name. -/
theorem Row.get?_render {schema : Schema} {r target : Resource} {rel : Relationship}
    (hsingle : (r.relationships.map Relationship.name).Nodup) (hrel : rel ∈ r.relationships)
    (htarget : schema.target? rel = some target) {selection child : Selection}
    (hchild : selection.child? rel.name = some child) (style : RenderStyle) {row : Row}
    (hrow : Entries.Ordered row.related) :
    (render schema style r selection row).get? rel.name = some
      (((Entries.get? rel.name row.related).bind (renderMembers? schema style target child)).getD
        (if rel.isMany then .arr [] else .null)) := by
  rw [render_eq]
  refine Entries.get?_ofList_append_of_mem _ (List.mem_filterMap.2 ⟨rel, hrel, ?_⟩) fun e he hname => ?_
  · have hrendered := Resource.renderedRelationship?_of_mem hsingle hrel
    rw [Resource.renderRelationship, hchild, get?_renderRelated hrendered htarget hchild hrow]
  · obtain ⟨other, hother, he⟩ := List.mem_filterMap.1 he
    have hsame : other = rel := by
      have hfound := Resource.relationship?_of_mem hsingle hother
      rw [← Resource.name_of_renderRelationship he, hname, Resource.relationship?_of_mem hsingle hrel] at hfound
      exact (Option.some.inj hfound).symm
    subst hsame
    have hrendered := Resource.renderedRelationship?_of_mem hsingle hrel
    rw [Resource.renderRelationship, hchild, get?_renderRelated hrendered htarget hchild hrow] at he
    exact (congrArg Prod.snd (Option.some.inj he)).symm

/-- Nothing is carried where nothing is embedded. -/
theorem Embeds.nested_of_childrenOf {es : Embeds} {t : Tables} {schema : Schema}
    {sees : Resource → Record → Bool} {path : List String} (h : es.childrenOf path = []) (r : Resource)
    (record : Record) : es.nested t schema sees r path record = .mk record [] := by
  rw [nested_eq, h]
  rfl

namespace Service

variable {svc : Service} {ctx : Context} {r target : Resource} {rel : Relationship} {i : Identity}
  {record : Record} {s : Directives} {d after : Desk} {pieces : List Filter} {sorts : List SortKey}

/-- The rows that the gates show. -/
abbrev seen (svc : Service) (ctx : Context) (t : Tables) : Resource → Record → Bool :=
  svc.registry.sees ctx t (fun _ _ => true) (requiredDepth + 1)

/-- The members of an entity that pass filters, sorted, inside a window, as they are rendered. -/
def renderedMembers (svc : Service) (ctx : Context) (t : Tables) (r target : Resource) (rel : Relationship)
    (record : Record) (pieces : List Filter) (sorts : List SortKey) (window : Window) : List Json :=
  (window.apply (Sorting.sort (Record.compare target (target.columns sorts))
    ((t.members svc.schema r record rel).filter fun member =>
      pieces.all (Filter.holds t svc.schema (svc.seen ctx t) target member) && svc.seen ctx t target member))).map
    fun member => Row.render svc.schema svc.style target (.mk [] []) (.mk member [])

/-- The first member does not depend on a window that starts with it. -/
theorem head?_renderedMembers_firstOnly {t : Tables} : (svc.renderedMembers ctx t r target rel record pieces sorts
    firstOnly).head? = (svc.renderedMembers ctx t r target rel record pieces sorts .unbounded).head? := by
  rw [renderedMembers, renderedMembers, List.head?_map, List.head?_map, Window.apply_unbounded]
  generalize Sorting.sort _ _ = members
  cases members <;> rfl

/-- The rows that a listing of members finds are the members. -/
theorem exists_rows_of_listing {t : Tables} (hr : svc.schema.resource? r.name = some r)
    (hrel : r.relationship? rel.name = some rel) (htarget : svc.schema.target? rel = some target)
    (hfiled : t.Filed svc.schema) (hstores : t.Stores r i record) (hflat : s.Flat)
    (hasked : QuerySite.Says ⟨svc.schema, svc.limits⟩ target s pieces sorts) {q listing : Query}
    (hlisting : svc.readQuery target s.listing = .ok listing) {window : Window}
    (hq : q = { listing with window }) {reading : Reading}
    (hreading : svc.reading ctx target q (some (membership r i rel)) = .ok reading) :
    ∃ rows, reading.rows t svc.schema = .ok rows ∧
      rows.map (Row.render svc.schema svc.style reading.resource reading.selection)
        = svc.renderedMembers ctx t r target rel record pieces sorts window := by
  obtain ⟨hembeds, hfields, hsorts, hfilter, -⟩ := QuerySite.read_listing hflat hasked hlisting
  have hsound : q.embeds.Sound (Embed.Admitted svc.schema target) := hq ▸ QuerySite.sound_read hlisting
  have hreached := Schema.resource?_of_target? htarget
  have hof := Registry.readingOf_of_reading hreached hsound.validate hreading
  have hrows : reading.rows t svc.schema = .ok
      ((q.selected t svc.schema (svc.seen ctx t) target (some (membership r i rel))).map
        (q.embeds.nested t svc.schema (svc.seen ctx t) target [])) :=
    Registry.rows_eq t _ (by decide) hfiled hreached hsound hof
  refine ⟨_, hrows, ?_⟩
  have hmatching : q.matching t svc.schema (svc.seen ctx t) target (some (membership r i rel))
      = (t.members svc.schema r record rel).filter fun member =>
        pieces.all (Filter.holds t svc.schema (svc.seen ctx t) target member) && svc.seen ctx t target member := by
    rw [← hfiled.members_eq_scan hr hrel htarget hstores.row, List.filter_filter, hq]
    refine List.filter_congr fun member _ => ?_
    rw [Filter.all_holds_readFilter hfilter]
    rfl
  rw [renderedMembers, Query.selected, hmatching, hof.resource_eq, hof.selection_eq, hq, hsorts, hfields, hembeds,
    List.map_map]
  refine List.map_congr_left fun member _ => ?_
  rw [Function.comp_apply, Embeds.nested_of_childrenOf (by rfl)]
  rfl

/-- The first row of an identity is the row of the entity, with everything that is embedded. -/
theorem first_eq_render {t : Tables} (hr : svc.schema.resource? r.name = some r) (hfiled : t.Filed svc.schema)
    (hstores : t.Stores r i record) (hpinpoints : t.Pinpoints r i) {q : Query}
    (hsound : q.embeds.Sound (Embed.Admitted svc.schema r)) (hwindow : q.window = .unbounded) {reading : Reading}
    (hreading : svc.reading ctx r q (some (.identity r i)) = .ok reading) {entity : Json}
    (hfirst : reading.first t svc.schema svc.style = .ok (some entity)) :
    entity = Row.render svc.schema svc.style r (.ofQuery q.fields q.embeds)
      (q.embeds.nested t svc.schema (svc.seen ctx t) r [] record) := by
  have hof := Registry.readingOf_of_reading hr hsound.validate hreading
  have hrendered : reading.first t svc.schema svc.style = .ok
      (((q.selected t svc.schema (svc.seen ctx t) r (some (.identity r i))).map
        (q.embeds.nested t svc.schema (svc.seen ctx t) r [])).head?.map
          (Row.render svc.schema svc.style r (.ofQuery q.fields q.embeds))) :=
    Registry.first_eq t _ (by decide) hfiled hr hsound hof svc.style
  rw [hfirst] at hrendered
  have hselected : ∀ found ∈ q.selected t svc.schema (svc.seen ctx t) r (some (.identity r i)),
      found = record := by
    intro found hfound
    rw [Query.selected, hwindow, Window.apply_unbounded, (Sorting.sort_perm _ _).mem_iff, Query.matching,
      List.mem_filter, Bool.and_eq_true, t.passes_identity] at hfound
    have hrow := ((hpinpoints found hfound.1).1 hfound.2.2).row
    exact Option.some.inj (hrow.symm.trans hstores.row)
  cases hrows : q.selected t svc.schema (svc.seen ctx t) r (some (.identity r i)) with
  | nil =>
    rw [hrows] at hrendered
    cases hrendered
  | cons found others =>
    rw [hrows] at hrendered hselected
    cases hrendered
    rw [hselected found List.mem_cons_self]

/-- An entity that is answered is its row, rendered with everything that is embedded. -/
theorem getEntity_eq_render (hr : svc.schema.resource? r.name = some r)
    (hfiled : d.store.tables.Filed svc.schema) (hstores : d.store.tables.Stores r i record)
    (hpinpoints : d.store.tables.Pinpoints r i) {params : Params} {entity : Json}
    (hget : (svc.getEntity ctx r i params).on d = (.ok entity, after)) :
    ∃ q, svc.readQuery r params = .ok q ∧
      entity = Row.render svc.schema svc.style r (.ofQuery q.fields q.embeds)
        (q.embeds.nested d.store.tables svc.schema (svc.seen ctx d.store.tables) r [] record) := by
  rw [getEntity_on] at hget
  obtain ⟨⟨⟩, -, hget⟩ := Except.bind_eq_ok.1 (congrArg Prod.fst hget)
  obtain ⟨q, hq, hget⟩ := Except.bind_eq_ok.1 hget
  obtain ⟨reading, hreading, hget⟩ := Except.bind_eq_ok.1 hget
  obtain ⟨first, hfirst, hget⟩ := Except.bind_eq_ok.1 hget
  refine ⟨q, hq, ?_⟩
  cases first with
  | none => cases hget
  | some found =>
    cases hget
    exact first_eq_render hr hfiled hstores hpinpoints (q := { q with window := .unbounded })
      (QuerySite.sound_read hq) rfl hreading hfirst

/-- What an entity shows for an embedded relationship are its members. -/
theorem get?_getEntity (hr : svc.schema.resource? r.name = some r)
    (hsingle : (r.relationships.map Relationship.name).Nodup) (hrel : rel ∈ r.relationships)
    (hname : Spellable rel.name) (htarget : svc.schema.target? rel = some target)
    (hfiled : d.store.tables.Filed svc.schema) (hstores : d.store.tables.Stores r i record)
    (hpinpoints : d.store.tables.Pinpoints r i) {entity : Json}
    (hget : (svc.getEntity ctx r i (s.embedding rel.name)).on d = (.ok entity, after)) :
    ∃ pieces sorts, QuerySite.Says ⟨svc.schema, svc.limits⟩ target s pieces sorts ∧
      (rel.isMany = false → sorts = [] ∧ s.window = .unbounded) ∧
      entity.get? rel.name = some (if rel.isMany
        then .arr (svc.renderedMembers ctx d.store.tables r target rel record pieces sorts s.window)
        else (svc.renderedMembers ctx d.store.tables r target rel record pieces sorts s.window).headD .null) := by
  have hfound := Resource.relationship?_of_mem hsingle hrel
  have hstep : svc.schema.step? r rel.name = some (rel, target) := Schema.step?_eq_some.2 ⟨hfound, htarget⟩
  obtain ⟨q, hq, rfl⟩ := getEntity_eq_render hr hfiled hstores hpinpoints hget
  have hsound := QuerySite.sound_read hq
  obtain ⟨-, -, e, pieces, hembeds, hpath, hselect, hasked, hjoined, hwindow⟩ :=
    QuerySite.read_embedding hname hfound htarget hq
  rw [hembeds] at hsound ⊢
  have hget : (Embeds.mk [e]).get? ([] ++ [rel.name]) = some e := by simp [Embeds.get?, hpath]
  have hbelow : (Embeds.mk [e]).childrenOf e.path = [] := by simp [Embeds.childrenOf]
  have hheight : (Embeds.mk [e]).height = 1 := by simp [Embeds.height, Embed.depth, hpath]
  have hchild : (Selection.ofQuery q.fields ⟨[e]⟩).child? rel.name = some (.mk [] []) := by
    rw [Selection.ofQuery, hheight, Selection.child?_ofEmbeds hsound.single, hget, Option.map_some, hselect]
    rfl
  have hshown : e.shown d.store.tables svc.schema (svc.seen ctx d.store.tables) r record rel target =
      s.window.apply (Sorting.sort (Record.compare target (target.columns e.sorts))
        ((d.store.tables.members svc.schema r record rel).filter fun member =>
          pieces.all (Filter.holds d.store.tables svc.schema (svc.seen ctx d.store.tables) target member)
            && svc.seen ctx d.store.tables target member)) := by
    simp only [Embed.shown, hjoined, hwindow, Filter.all_holds_conjoinAll]
  refine ⟨pieces, e.sorts, hasked, fun hone => ?_, ?_⟩
  · have hscoped : e.isScoped = false := by
      refine Bool.eq_false_iff.2 fun hscoped => ?_
      obtain ⟨parent, other, reached, hat, hstep', hmany⟩ :=
        (hsound.admitted e (List.mem_singleton_self e)).toMany hscoped
      rw [hpath] at hat hstep'
      cases hat
      cases hstep.symm.trans hstep'
      rw [hone] at hmany
      cases hmany
    obtain ⟨hsorts, hunbounded⟩ := Embed.isScoped_eq_false hscoped
    exact ⟨hsorts, hwindow ▸ hunbounded⟩
  · have hlast : e.path.getLastD "" = rel.name := by rw [hpath]; rfl
    have hrows : Embeds.nested d.store.tables svc.schema (svc.seen ctx d.store.tables) ⟨[e]⟩ target e.path
        = fun member => .mk member [] := funext (Embeds.nested_of_childrenOf hbelow target)
    rw [Row.get?_render hsingle hrel htarget hchild _ (Embeds.ordered_nested ..),
      Embeds.get?_nested hsound.single, hget, Option.map_some, Embeds.carried, hlast, hstep]
    dsimp only
    rw [hshown, hrows, renderedMembers]
    generalize s.window.apply _ = members
    unfold Relationship.arrange
    cases rel.isMany with
    | true => exact congrArg (some ∘ Json.arr) (List.map_map ..)
    | false => cases members <;> rfl

/-! ## Two ways to the same members -/

/-- A relationship that is read by itself is read on the desk as it is, once the query has been read. -/
theorem exists_query_of_related {α : Type} {k : Relationship → Resource → Query → Serving α} {params : Params}
    (hrelated : svc.related r rel.name = .ok (rel, target)) {answer : α}
    (h : (do
      svc.ensureAllowed ctx r .get
      let (rel, target) ← svc.related r rel.name
      svc.ensureAllowed ctx target .get
      svc.ensureVisible ctx r i
      let q ← svc.readQuery target params
      k rel target q : Serving α).on d = (.ok answer, after)) :
    ∃ q, svc.readQuery target params = .ok q ∧ (k rel target q).on d = (.ok answer, after) := by
  have hstep {β : Type} (x : Except Error β) : (liftM x : Serving β).Finds (x = .ok ·) :=
    Serving.finds_liftM fun _ h => h
  obtain ⟨_, -, h⟩ := (hstep _).of_on_bind h
  obtain ⟨_, hfound, h⟩ := (hstep _).of_on_bind h
  cases hrelated.symm.trans hfound
  obtain ⟨_, -, h⟩ := (hstep _).of_on_bind h
  obtain ⟨_, -, h⟩ := (finds_ensureVisible svc ctx r i).of_on_bind h
  exact (hstep _).of_on_bind h

/-- The relationship of an entity shows the same members embedded and by itself. An entity that is stored,
each row under its own identity, is asked for with a relationship embedded, and the relationship is asked
for by itself, with the same directives. Where both are answered, the members are the same, in the same
order. Without a limit there must be no page ceiling, since it stands for the limit of a listing. -/
theorem embedded_eq_listed (hr : svc.schema.resource? r.name = some r)
    (hsingle : (r.relationships.map Relationship.name).Nodup) (hrel : rel ∈ r.relationships)
    (hname : Spellable rel.name) (htarget : svc.schema.target? rel = some target)
    (hfiled : d.store.tables.Filed svc.schema) (htypes : ∀ f ∈ r.identityFields, f.type.isExact = true)
    (hexact : d.store.tables.FiledExactly r) (hstores : d.store.tables.Stores r i record) (hflat : s.Flat)
    {entity : Json} (hget : (svc.getEntity ctx r i (s.embedding rel.name)).on d = (.ok entity, after)) :
    (rel.isMany = true → (s.limit = none → QuerySite.ceilingOf ⟨svc.schema, svc.limits⟩ target = none) →
      ∀ listed end', (svc.listRelated ctx r i rel.name s.listing).on d = (.ok listed, end') →
        entity.get? rel.name = some (.arr listed.items)) ∧
    (rel.isMany = false → ∀ member end',
      (svc.getRelatedOne ctx r i rel.name s.listing).on d = (.ok member, end') →
        entity.get? rel.name = some member) := by
  have hfound := Resource.relationship?_of_mem hsingle hrel
  have hreached := Schema.resource?_of_target? htarget
  have hrelated : svc.related r rel.name = .ok (rel, target) := by
    rw [related, hfound]
    exact Except.bind_eq_ok.2 ⟨target, Schema.require_eq_ok.2 htarget, rfl⟩
  obtain ⟨pieces, sorts, hasked, hone, hentity⟩ := get?_getEntity hr hsingle hrel hname htarget hfiled hstores
    (hexact.pinpoints htypes hstores svc.schema) hget
  rw [hentity]
  refine ⟨fun hmany hceiling listed end' hlist => ?_, fun hnot member end' hmember => ?_⟩
  · obtain ⟨q, hq, hlist⟩ := exists_query_of_related
      (k := fun rel target q => svc.collection ctx target q (some (membership r i rel))) hrelated hlist
    rw [collection_on] at hlist
    obtain ⟨reading, hreading, hlist⟩ := Except.bind_eq_ok.1 (congrArg Prod.fst hlist)
    obtain ⟨rows, hrows, hrendered⟩ :=
      exists_rows_of_listing hr hfound htarget hfiled hstores hflat hasked hq rfl hreading
    obtain ⟨found, hfound, hlist⟩ := Except.bind_eq_ok.1 hlist
    cases hrows.symm.trans hfound
    obtain ⟨available, -, hlist⟩ := Except.bind_eq_ok.1 hlist
    cases hlist
    obtain ⟨-, -, -, -, hwindow⟩ := QuerySite.read_listing hflat hasked hq
    rw [if_pos hmany, hrendered, hwindow hceiling]
  · obtain ⟨q, hq, hmember⟩ := exists_query_of_related
      (k := fun rel target q => do
        let found ← svc.first ctx target { q with window := firstOnly } (some (membership r i rel))
        pure (found.getD .null)) hrelated hmember
    obtain ⟨rfl, hunbounded⟩ := hone hnot
    obtain ⟨found, between, hread, hmember⟩ := Serving.on_bind_eq_ok.1 hmember
    cases hmember
    rw [first_on] at hread
    obtain ⟨reading, hreading, hread⟩ := Except.bind_eq_ok.1 (congrArg Prod.fst hread)
    obtain ⟨rows, hrows, hrendered⟩ :=
      exists_rows_of_listing hr hfound htarget hfiled hstores hflat hasked hq rfl hreading
    obtain ⟨others, hothers, hread⟩ := Except.bind_eq_ok.1 hread
    cases hrows.symm.trans hothers
    cases hread
    rw [if_neg (by simp [hnot]), hunbounded, ← List.head?_map, hrendered, head?_renderedMembers_firstOnly,
      List.headD_eq_head?_getD]

end Service

namespace Music

/-- Support agents by their last names backwards, without the first one. -/
def agents : Directives where
  flat := [("title", "Sales Support Agent"), ("employee_id-lt", "6")]
  sort := some "-last_name"
  limit := some "5"
  offset := some "1"

theorem agents_embedded_eq_listed : ∃ entity listed,
    ((staffService.getEntity (asUser 2) employees ⟨[.int 2]⟩ (agents.embedding "reports")).on staffDesk).1
      = .ok entity ∧
    ((staffService.listRelated (asUser 2) employees ⟨[.int 2]⟩ "reports" agents.listing).on staffDesk).1
      = .ok listed ∧
    listed.items.length = 2 ∧ entity.get? "reports" = some (.arr listed.items) := by
  have hget : ((staffService.getEntity (asUser 2) employees ⟨[.int 2]⟩ (agents.embedding "reports")).on
      staffDesk).1.isOk = true := by decide +kernel
  have hlist : ((staffService.listRelated (asUser 2) employees ⟨[.int 2]⟩ "reports" agents.listing).on
      staffDesk).1.toOption.map (·.items.length) = some 2 := by decide +kernel
  rcases hentity : (staffService.getEntity (asUser 2) employees ⟨[.int 2]⟩ (agents.embedding "reports")).on
    staffDesk with ⟨answer, after⟩
  rcases hlisted : (staffService.listRelated (asUser 2) employees ⟨[.int 2]⟩ "reports" agents.listing).on
    staffDesk with ⟨_ | listed, after'⟩
  · rw [hlisted] at hlist
    cases hlist
  rw [hlisted] at hlist
  rw [hentity] at hget
  obtain ⟨entity, rfl⟩ := Except.exists_of_isOk hget
  have hspellable : Spellable employees.relationships[1].name :=
    ⟨by decide +kernel, by decide +kernel, by decide +kernel⟩
  have hstores : staffDesk.store.tables.Stores employees ⟨[.int 2]⟩ employeeRows[1].record := ⟨rfl, rfl⟩
  have htarget : staffService.schema.target? employees.relationships[1] = some employees := by decide +kernel
  have hflat : agents.Flat := by
    unfold Directives.Flat
    decide +kernel
  have hsame := (Service.embedded_eq_listed (by decide +kernel) (by decide +kernel) (List.getElem_mem _) hspellable
    htarget (filed_staffTables (by decide +kernel)) (by decide +kernel) filedExactly_staffDesk hstores hflat
    hentity).1 rfl nofun _ _ hlisted
  exact ⟨entity, listed, rfl, rfl, Option.some.inj hlist, hsame⟩

/-- Employees with one more relationship, whose name reads as a path. -/
def branching : Resource :=
  { employees with
    relationships := employees.relationships ++
      [{ employees.relationships[1] with name := "manager.reports", inverse := none }] }

def branchingStaff : Service where
  registry := {
    schema := {
      table := .ofList [("employees", branching)]
      named := by decide +kernel
      faultless := by decide +kernel }
    gates := []
    relationshipGates := [] }

/-- A name that reads as a path is taken for the path: the relationship has three members, and the entity
shows none of them under its name. -/
theorem branching_not_embedded :
    (branching.relationships.map Relationship.name).Nodup ∧ staffDesk.store.tables.FiledExactly branching ∧
    staffDesk.store.tables.Stores branching ⟨[.int 2]⟩ employeeRows[1].record ∧
    ((branchingStaff.listRelated .empty branching ⟨[.int 2]⟩ "manager.reports" (Directives.listing {})).on
      staffDesk).1.toOption.map (·.items.length) = some 3 ∧
    ((branchingStaff.getEntity .empty branching ⟨[.int 2]⟩ (Directives.embedding {} "manager.reports")).on
      staffDesk).1.toOption.map (fun entity => (entity.get? "manager.reports").isSome) = some false :=
  ⟨by decide +kernel, by decide +kernel, ⟨rfl, rfl⟩, by decide +kernel, by decide +kernel⟩

end Music

end NestedResources
