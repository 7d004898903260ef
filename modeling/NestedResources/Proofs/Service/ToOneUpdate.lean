import NestedResources.Proofs.Service.Batch
import NestedResources.Proofs.Store.Refiled
import NestedResources.Proofs.Store.Replaced
import NestedResources.Proofs.Write.Single

/-!
# Updates of a relationship to one entity

An update of a relationship to one entity names the entity that is to be its member, or says that there is
none. The first commits a replacement of the members that the caller sees (`WriteOp.commit_named`), the second
detaches them (`WriteOp.commit_null`), and to detach them first makes no difference to a replacement unless
it overwrites a foreign key whose member is to be deleted (`WriteOp.replacement_same`).
-/
namespace NestedResources

/-- A relationship to one entity with identities of both ends, which find no other entities. The one of
the target is stored. -/
structure Tables.Pairs (t : Tables) (s : Schema) (r target : Resource) (rel : Relationship) (i j : Identity)
    (childRow : Record) : Prop where
  leads : s.LeadsToOne r target rel
  child : t.Stores target j childRow
  pinpoints : t.Pinpoints r i
  pinpointsChild : t.Pinpoints target j

namespace Tables

variable {t u : Tables} {s : Schema} {r target : Resource} {rel : Relationship} {i j : Identity}
  {record new childRow : Record}

/-- A faded row that is under the key of its own identity has the identity that it had. -/
theorem Stores.faded (h : t.Stores r i record) (hfades : t.Fades u) (hrow : u.row? r.name i = some new)
    (hfiled : r.FiledAt i.key new) : u.Stores r i new := by
  obtain ⟨k, hk, -⟩ := hfiled
  obtain ⟨old, hold, hfaded⟩ := hfades.rows r.name i.key new hrow
  have hsame : t.rowAt? r.name i.key = some record := h.row
  cases hold.symm.trans hsame
  cases h.identity.symm.trans (hfaded.identityOf? hk)
  exact ⟨hrow, hk⟩

theorem Pairs.faded {newChild : Record} (h : t.Pairs s r target rel i j childRow) (hfiled : t.Filed s)
    (hstores : t.Stores r i record) (hfades : t.Fades u) (hchild : u.Stores target j newChild) :
    u.Pairs s r target rel i j newChild where
  leads := h.leads
  child := hchild
  pinpoints := h.pinpoints.of_fades (hfiled.keyed h.leads.resource) hstores hfades
  pinpointsChild := h.pinpointsChild.of_fades (hfiled.keyed h.leads.resource_target) h.child hfades

end Tables

/-! ## What is committed -/

namespace WriteOp

variable {g : Registry} {ctx : Context} {mode : WriteMode} {d after : Desk} {r target : Resource}
  {rel : Relationship} {i j : Identity} {record childRow : Record} {members : List (String × Json)}
  {o : Outcome}

/-- The members of a relationship that the caller sees. -/
abbrev seenMembers (g : Registry) (ctx : Context) (t : Tables) (r target : Resource) (rel : Relationship)
    (i : Identity) (record : Record) (required : Option Predicate) : List Identity :=
  WalkSite.seen ⟨g, ctx, t⟩ (WalkSite.topParent r rel i record) target i required

theorem owns_of_stores {t : Tables} (hs : g.schema.LeadsToOne r target rel) (h : t.Stores r i record) :
    WalkSite.Owns ⟨g, ctx, t⟩ (WalkSite.topParent r rel i record) target i record :=
  ⟨hs.resource, hs.relationship, hs.leads, rfl, h.row⟩

/-- Only members are seen. -/
theorem notMem_seenMembers {t : Tables} {required : Option Predicate}
    (hs : g.schema.LeadsToOne r target rel) (hstores : t.Stores r i record)
    (hnot : j.key ∉ t.memberKeys g.schema r target record rel) :
    j.key ∉ (seenMembers g ctx t r target rel i record required).map Identity.key := by
  intro hseen
  obtain ⟨k, hk, hkey⟩ := List.mem_map.1 hseen
  obtain ⟨-, -, -, hmember, -⟩ := (WalkSite.mem_seen (owns_of_stores hs hstores)).1 hk
  exact hnot (hkey ▸ hmember)

/-- An update without a member detaches the members that the caller sees. -/
theorem commit_null (hpair : d.store.tables.Pairs g.schema r target rel i j childRow)
    (h : Serving.on (Serving.commit g ctx (update r.name i (.obj [(rel.name, .null)]) mode).walk) d =
      (.ok o, after)) :
    (rel.name = selfKey ∧ after.store = d.store) ∨ rel.name ≠ selfKey ∧ ∃ record required p,
      d.store.tables.Stores r i record ∧ g.required ctx target = .ok required ∧
      (Progress.unlinks r rel i (seenMembers g ctx d.store.tables r target rel i record required)).foldlM
        (Progress.apply g.schema) { store := d.store } = .ok p ∧
      p.emptyColumn? g.schema = none ∧ after.store = p.store := by
  obtain ⟨roots, w, p, hrun, hissues, hplan, hfull, hstore⟩ := Serving.exists_full_progress_of_commit_ok h
  have hs := hpair.leads
  rcases WalkSite.update_null_plan ⟨g, ctx, d.store.tables⟩ hs.resource hs.relationship hs.leads
      hs.one hpair.pinpoints hrun hissues with
    ⟨hself, hcommands⟩ | ⟨hother, record, required, hstores, hrequired, hcommands⟩
  · rw [hcommands] at hplan
    cases hplan
    exact .inl ⟨hself, hstore⟩
  · rw [hcommands] at hplan
    exact .inr ⟨hother, record, required, p, hstores, hrequired, hplan, hfull, hstore⟩

/-- An update that names the member links it unless it is one, and detaches first the members that the
caller sees where the key is not the entity's own. -/
theorem commit_named (hpair : d.store.tables.Pairs g.schema r target rel i j childRow)
    (hnames : target.Names members j)
    (h : Serving.on (Serving.commit g ctx (update r.name i (.obj [(rel.name, .obj members)]) mode).walk) d =
      (.ok o, after)) :
    (rel.name = selfKey ∧ after.store = d.store) ∨ rel.name ≠ selfKey ∧ ∃ record,
      d.store.tables.Stores r i record ∧
      ((j.key ∈ d.store.tables.memberKeys g.schema r target record rel ∧ after.store = d.store) ∨
        (j.key ∉ d.store.tables.memberKeys g.schema r target record rel ∧ ∃ required p,
          g.required ctx target = .ok required ∧
          (Progress.replacement r rel i j
              (seenMembers g ctx d.store.tables r target rel i record required)).foldlM
            (Progress.apply g.schema) { store := d.store } = .ok p ∧
          p.emptyColumn? g.schema = none ∧ after.store = p.store)) := by
  obtain ⟨roots, w, p, hrun, hissues, hplan, hfull, hstore⟩ := Serving.exists_full_progress_of_commit_ok h
  have hs := hpair.leads
  rcases WalkSite.update_named_plan ⟨g, ctx, d.store.tables⟩ hs.resource hs.relationship hs.leads
      hs.one hpair.pinpoints hpair.pinpointsChild hpair.child hnames hrun hissues with
    ⟨hself, hcommands⟩ | ⟨hother, record, hstores, hcases⟩
  · rw [hcommands] at hplan
    cases hplan
    exact .inl ⟨hself, hstore⟩
  refine .inr ⟨hother, record, hstores, ?_⟩
  rcases hcases with ⟨hmember, hcommands⟩ | ⟨hnot, required, hrequired, hcommands⟩
  · rw [hcommands] at hplan
    cases hplan
    exact .inl ⟨hmember, hstore⟩
  refine .inr ⟨hnot, required, p, hrequired, ?_, hfull, hstore⟩
  rw [hcommands] at hplan
  unfold Progress.replacement
  cases hjoin : rel.join.isForeignKey with
  | true =>
    rw [WalkSite.replacing_of_foreignKey (p := WalkSite.topParent r rel i record) hjoin] at hplan
    exact hplan
  | false =>
    -- The named entity is no member, so all the members that are seen are others.
    have hothers : ∀ k ∈ seenMembers g ctx d.store.tables r target rel i record required,
        k.key ≠ j.key := fun k hk hkey =>
      notMem_seenMembers hs hstores hnot (List.mem_map.2 ⟨k, hk, hkey⟩)
    rw [WalkSite.replacing_of_held (p := WalkSite.topParent r rel i record) hjoin rfl hothers] at hplan
    exact hplan

/-! ## Detaching first -/

/-- No members are seen once those that were seen are detached. -/
theorem seenMembers_of_unlinks {p q : Progress} {new : Record} (hs : g.schema.LeadsToOne r target rel)
    (hkeyed : p.tables.Keyed target) (hstores : p.tables.Stores r i record) (hnew : q.tables.Stores r i new)
    (hunlinks : (Progress.unlinks r rel i
      (seenMembers g ctx p.tables r target rel i record none)).foldlM (Progress.apply g.schema) p = .ok q) :
    seenMembers g ctx q.tables r target rel i new none = [] := by
  obtain ⟨hfades, -⟩ := Progress.unlinks_gone hs hkeyed hunlinks
  refine List.eq_nil_iff_forall_not_mem.2 fun k hk => ?_
  obtain ⟨row, hrow, hidentity, hmember, -⟩ := (WalkSite.mem_seen (owns_of_stores hs hnew)).1 hk
  obtain ⟨hbefore, hnot⟩ := Progress.memberKeys_unlinks hs hkeyed hstores.row hunlinks hnew.row k.key hmember
  obtain ⟨old, hold, hfaded⟩ := hfades.mem_rowsOf hrow
  refine hnot (List.mem_map_of_mem ((WalkSite.mem_seen (owns_of_stores hs hstores)).2 ?_))
  exact ⟨old, hold, hfaded.identityOf? hidentity, hbefore, rfl⟩

/-- The entity that is to be linked is there after the others are detached. -/
theorem exists_row_of_unlinks {p q last : Progress} {items : List Identity}
    (hs : g.schema.LeadsToOne r target rel)
    (hcascade : rel.join.isForeignKey = true → rel.cascade = .detach)
    (hchild : p.tables.row? target.name j = some childRow)
    (hunlinks : (Progress.unlinks r rel i items).foldlM (Progress.apply g.schema) p = .ok q)
    (hplan : (Progress.replacement r rel i j items).foldlM (Progress.apply g.schema) p = .ok last) :
    ∃ row, q.tables.row? target.name j = some row := by
  cases hjoin : rel.join with
  | foreignKey own referenced =>
    have hagree := Progress.unlinks_agree hs hjoin (hcascade (by rw [hjoin]; rfl)) hunlinks
    exact Option.isSome_iff_exists.1 (hagree.isSome_rowAt? (Option.isSome_of_eq_some hchild))
  | reverse own held =>
    obtain ⟨between, hbetween, hlink⟩ := Progress.replacement_of_held hjoin hplan
    cases hbetween.symm.trans hunlinks
    obtain ⟨-, row, -, -, hrow, -, -⟩ := Progress.link_of_held hs hjoin hlink
    exact ⟨row, hrow⟩
  | association table own other => exact absurd hjoin (hs.columns table own other)

/-- Once the members are detached, the named entity is still there with its identity. -/
theorem exists_stores_of_unlinks {p q last : Progress} {new : Record} {items : List Identity}
    (hcascade : rel.join.isForeignKey = true → rel.cascade = .detach)
    (hparts : rel.cascade = .delete → target.RequiresHeld g.schema) (hfiled : p.tables.Filed g.schema)
    (hpair : p.tables.Pairs g.schema r target rel i j childRow) (hstores : p.tables.Stores r i record)
    (hnew : q.tables.Stores r i new) (hnot : j.key ∉ items.map Identity.key)
    (hunlinks : (Progress.unlinks r rel i items).foldlM (Progress.apply g.schema) p = .ok q)
    (hfull : q.emptyColumn? g.schema = none)
    (hplan : (Progress.replacement r rel i j items).foldlM (Progress.apply g.schema) p = .ok last) :
    ∃ newChild, q.tables.Stores target j newChild := by
  have hs := hpair.leads
  cases hpolicy : rel.cascade with
  | detach =>
    by_cases hitself : target.name = r.name ∧ j.key = i.key
    · obtain rfl : target = r := Schema.eq_of_name hs.resource_target hs.resource hitself.1
      obtain rfl := hpair.child.eq_of_key hstores hitself.2
      exact ⟨new, hnew⟩
    · have hrow := Progress.rowAt?_unlinks hs hpolicy hunlinks hitself fun _ => hnot
      exact ⟨childRow, hrow.trans hpair.child.row, hpair.child.identity⟩
  | delete =>
    obtain ⟨newChild, hrow⟩ := exists_row_of_unlinks hs hcascade hpair.child.row hunlinks hplan
    obtain ⟨hfades, -⟩ := Progress.unlinks_gone hs (hfiled.keyed hs.resource_target) hunlinks
    have hfiledAt := Progress.filedAt_of_run hfiled hs.resource_target (hparts hpolicy)
      (fun change hchange => absurd hchange (Progress.link_notMem_unlinks items change)) hunlinks hfull hrow
    exact ⟨newChild, hpair.child.faded hfades hrow hfiledAt⟩

/-- Linking the named entity gives the same tables whether the others are detached by the same plan or by
one before it. -/
theorem replacement_same {p q last last' : Progress} {new : Record} (hs : g.schema.LeadsToOne r target rel)
    (hcascade : rel.join.isForeignKey = true → rel.cascade = .detach) (hkeyed : p.tables.Keyed target)
    (hstores : p.tables.Stores r i record) (hnew : q.tables.Stores r i new)
    (hunlinks : (Progress.unlinks r rel i (seenMembers g ctx p.tables r target rel i record none)).foldlM
      (Progress.apply g.schema) p = .ok q)
    (hplan : (Progress.replacement r rel i j (seenMembers g ctx p.tables r target rel i record none)).foldlM
      (Progress.apply g.schema) p = .ok last)
    (hplan' : (Progress.replacement r rel i j (seenMembers g ctx q.tables r target rel i new none)).foldlM
      (Progress.apply g.schema) { store := q.store } = .ok last') : last.tables.Same last'.tables := by
  cases hjoin : rel.join with
  | foreignKey own referenced =>
    have hagree := Progress.unlinks_agree hs hjoin (hcascade (by rw [hjoin]; rfl)) hunlinks
    obtain ⟨hfades, -⟩ := Progress.unlinks_gone hs hkeyed hunlinks
    exact Progress.link_same (q := { store := q.store }) hs hjoin hagree hfades
      (Progress.replacement_of_own hjoin hplan) (Progress.replacement_of_own hjoin hplan')
  | reverse own held =>
    obtain ⟨between, hbetween, hlink⟩ := Progress.replacement_of_held hjoin hplan
    cases hbetween.symm.trans hunlinks
    obtain ⟨start, hstart, hlink'⟩ := Progress.replacement_of_held hjoin hplan'
    rw [seenMembers_of_unlinks hs hkeyed hstores hnew hunlinks] at hstart
    cases hstart
    rw [Progress.link_tables_congr (p := q) (q := { store := q.store }) hs hjoin rfl hlink hlink']
    exact .refl _
  | association table own other => exact absurd hjoin (hs.columns table own other)

/-- A relationship called like an entity itself is not walked over. -/
theorem store_of_self (hself : rel.name = selfKey)
    (hpair : d.store.tables.Pairs g.schema r target rel i j childRow) (hnames : target.Names members j)
    (h : Serving.on (Serving.commit g ctx (update r.name i (.obj [(rel.name, .obj members)]) mode).walk) d =
      (.ok o, after)) : after.store = d.store := by
  rcases commit_named hpair hnames h with ⟨-, hstore⟩ | ⟨hother, -⟩
  · exact hstore
  · exact absurd hself hother

/-- An update that succeeds is of a stored entity. -/
theorem exists_stores_of_commit (hs : g.schema.LeadsToOne r target rel) (hother : rel.name ≠ selfKey)
    (hpinpoints : d.store.tables.Pinpoints r i)
    (h : Serving.on (Serving.commit g ctx (update r.name i (.obj [(rel.name, .obj members)]) mode).walk) d =
      (.ok o, after)) : ∃ record, d.store.tables.Stores r i record := by
  obtain ⟨roots, w, p, hrun, hissues, -, -, -⟩ := Serving.exists_full_progress_of_commit_ok h
  rcases WalkSite.update_single_eq_ok hs.resource hs.relationship hs.leads hs.one hpinpoints (.inl rfl) hrun
    hissues with ⟨hself, -⟩ | ⟨record, between, htop, -⟩
  · exact absurd hself hother
  · exact ⟨record, htop.stores⟩

/-- Open to everybody, an update that names an entity which is no member replaces all the members. -/
theorem commit_replacement (hopen : g.IsOpen) (hother : rel.name ≠ selfKey)
    (hpair : d.store.tables.Pairs g.schema r target rel i j childRow)
    (hnot : ∀ record, d.store.tables.Stores r i record →
      j.key ∉ d.store.tables.memberKeys g.schema r target record rel) (hnames : target.Names members j)
    (h : Serving.on (Serving.commit g ctx (update r.name i (.obj [(rel.name, .obj members)]) mode).walk) d =
      (.ok o, after)) :
    ∃ record p, d.store.tables.Stores r i record ∧
      (Progress.replacement r rel i j
        (seenMembers g ctx d.store.tables r target rel i record none)).foldlM
          (Progress.apply g.schema) { store := d.store } = .ok p ∧ after.store = p.store := by
  rcases commit_named hpair hnames h with ⟨hself, -⟩ | ⟨-, record, hstores, hcases⟩
  · exact absurd hself hother
  rcases hcases with ⟨hmember, -⟩ | ⟨-, required, p, hrequired, hplan, -, hstore⟩
  · exact absurd hmember (hnot record hstores)
  cases (hopen.required ctx target).symm.trans hrequired
  exact ⟨record, p, hstores, hplan, hstore⟩

/-- Naming another member does the same as saying first that there is none, unless the members that it
displaces from a foreign key are to be deleted. -/
theorem same_of_detached_first {mid once : Desk} {o₁ o₂ o₃ : Outcome} (hopen : g.IsOpen)
    (hcascade : rel.join.isForeignKey = true → rel.cascade = .detach)
    (hparts : rel.cascade = .delete → target.RequiresHeld g.schema)
    (hfiled : d.store.tables.Filed g.schema)
    (hpair : d.store.tables.Pairs g.schema r target rel i j childRow)
    (hstores : d.store.tables.Stores r i record)
    (hnot : j.key ∉ d.store.tables.memberKeys g.schema r target record rel)
    (hnames : target.Names members j)
    (hnull : Serving.on (Serving.commit g ctx (update r.name i (.obj [(rel.name, .null)]) mode).walk) d =
      (.ok o₁, mid))
    (hthen : Serving.on (Serving.commit g ctx
      (update r.name i (.obj [(rel.name, .obj members)]) mode).walk) mid = (.ok o₂, after))
    (honce : Serving.on (Serving.commit g ctx
      (update r.name i (.obj [(rel.name, .obj members)]) mode).walk) d = (.ok o₃, once)) :
    once.store.tables.Same after.store.tables := by
  have hs := hpair.leads
  have hkeyed := hfiled.keyed hs.resource_target
  rcases commit_null hpair hnull with
    ⟨hself, hmid⟩ | ⟨hother, row, required, q, hrow, hrequired, hunlinks, hfull, hmid⟩
  · rw [store_of_self hself hpair hnames honce, store_of_self hself (hmid ▸ hpair) hnames hthen, hmid]
    exact .refl _
  cases (hopen.required ctx target).symm.trans hrequired
  cases hrow.row.symm.trans hstores.row
  obtain ⟨row, p, hrow, hplan, hsingle⟩ := commit_replacement hopen hother hpair (fun row hrow => by
    cases hrow.row.symm.trans hstores.row
    exact hnot) hnames honce
  cases hrow.row.symm.trans hstores.row
  obtain ⟨hfades, -⟩ := Progress.unlinks_gone (p := { store := d.store }) hs hkeyed hunlinks
  obtain ⟨new, hnew⟩ := exists_stores_of_commit (d := mid) hs hother
    (by rw [hmid]; exact hpair.pinpoints.of_fades (hfiled.keyed hs.resource) hstores hfades) hthen
  rw [hmid] at hnew
  obtain ⟨newChild, hchild⟩ := exists_stores_of_unlinks (p := { store := d.store }) hcascade hparts hfiled hpair
    hstores hnew (notMem_seenMembers hs hstores hnot) hunlinks hfull hplan
  have hpair' := hpair.faded hfiled hstores hfades hchild
  -- Who is a member after the others are detached was one before.
  have hnot' : ∀ new, q.tables.Stores r i new →
      j.key ∉ q.tables.memberKeys g.schema r target new rel := fun new hnew hmember =>
    hnot (Progress.memberKeys_unlinks (p := { store := d.store }) hs hkeyed hstores.row hunlinks hnew.row
      j.key hmember).1
  obtain ⟨found, p', hfound, hplan', hlast⟩ := commit_replacement hopen hother (by rw [hmid]; exact hpair')
    (by rw [hmid]; exact hnot') hnames hthen
  rw [hmid] at hfound hplan'
  rw [hsingle, hlast]
  exact replacement_same (p := { store := d.store }) hs hcascade hkeyed hstores hfound hunlinks hplan hplan'

end WriteOp

namespace Music

/-- Employees with one manager and one report each, who are deleted when they are replaced. -/
def tied : Resource :=
  { employees with
    relationships := employees.relationships.map fun rel =>
      { rel with cardinality := if rel.isMany then .oneToOne else rel.cardinality, cascade := .delete } }

def tiedSchema : Schema where
  table := .ofList [("employees", tied)]
  named := by decide +kernel
  faultless := by decide +kernel

/-- The relationship to the one who reports to an employee. -/
def soleReport : Relationship where
  name := "reports"
  target := "employees"
  cardinality := .oneToOne
  join := .reverse ["employee_id"] ["reports_to"]
  cascade := .delete
  inverse := some "manager"

def openTied : Registry := { schema := tiedSchema, gates := [], relationshipGates := [] }

theorem isOpen_openTied : openTied.IsOpen :=
  ⟨fun _ h => (by cases h), fun _ h => (by cases h)⟩

theorem filed_tied : staffDesk.store.tables.Filed tiedSchema :=
  filed_employeeRows (r := tied) (by decide +kernel) rfl rfl

/-- Employees find themselves and nobody else by their numbers. -/
theorem pinpoints_tied {i : Identity} {record : Record} (h : staffDesk.store.tables.Stores tied i record) :
    staffDesk.store.tables.Pinpoints tied i :=
  have hexact : staffDesk.store.tables.FiledExactly tied := filedExactly_staffDesk
  hexact.pinpoints (by decide +kernel) h tiedSchema

def updateTied (id : Int) (relationship : String) (raw : Json) : Serving Outcome :=
  Serving.commit openTied ⟨.empty⟩
    (WriteOp.update "employees" ⟨[.int id]⟩ (.obj [(relationship, raw)]) .patch).walk

def employee (id : Int) : Json := .obj [("employee_id", .int id)]

theorem leadsToOne_soleReport : tiedSchema.LeadsToOne tied tied soleReport where
  resource := by decide +kernel
  relationship := by decide +kernel
  leads := by decide +kernel
  one := rfl
  columns := fun _ _ _ h => by cases h

/-- The three who report to the second employee are deleted, be it that the sixth one replaces them or
that they go first. -/
theorem sixth_replaces_reports : ∃ mid after once o₁ o₂ o₃,
    (updateTied 2 "reports" .null).on staffDesk = (.ok o₁, mid) ∧
      (updateTied 2 "reports" (employee 6)).on mid = (.ok o₂, after) ∧
      (updateTied 2 "reports" (employee 6)).on staffDesk = (.ok o₃, once) ∧
      once.store.tables.Same after.store.tables := by
  rcases hnull : (updateTied 2 "reports" .null).on staffDesk with ⟨first, mid⟩
  rcases hthen : (updateTied 2 "reports" (employee 6)).on mid with ⟨second, after⟩
  rcases honce : (updateTied 2 "reports" (employee 6)).on staffDesk with ⟨single, once⟩
  have hoks : ((updateTied 2 "reports" .null).on staffDesk).1.isOk = true ∧
      ((updateTied 2 "reports" (employee 6)).on
        ((updateTied 2 "reports" .null).on staffDesk).2).1.isOk = true ∧
      ((updateTied 2 "reports" (employee 6)).on staffDesk).1.isOk = true := by decide +kernel
  rw [hnull, hthen, honce] at hoks
  obtain ⟨o₁, rfl⟩ := Except.exists_of_isOk hoks.1
  obtain ⟨o₂, rfl⟩ := Except.exists_of_isOk hoks.2.1
  obtain ⟨o₃, rfl⟩ := Except.exists_of_isOk hoks.2.2
  have hsecond : staffDesk.store.tables.Stores tied ⟨[.int 2]⟩ employeeRows[1].record := ⟨rfl, rfl⟩
  have hsixth : staffDesk.store.tables.Stores tied ⟨[.int 6]⟩ employeeRows[5].record := ⟨rfl, rfl⟩
  refine ⟨mid, after, once, o₁, o₂, o₃, rfl, hthen, rfl, ?_⟩
  exact WriteOp.same_of_detached_first isOpen_openTied (fun h => by cases h) (fun _ => by decide +kernel) filed_tied
    ⟨leadsToOne_soleReport, hsixth, pinpoints_tied hsecond, pinpoints_tied hsixth⟩ hsecond
    (by decide +kernel) ⟨by decide +kernel, ⟨none, rfl, by decide⟩, rfl⟩ hnull hthen honce

/-- The relationship to the manager of an employee. -/
def soleManager : Relationship where
  name := "manager"
  target := "employees"
  cardinality := .manyToOne
  join := .foreignKey ["reports_to"] ["employee_id"]
  cascade := .delete
  inverse := some "reports"

theorem leadsToOne_soleManager : tiedSchema.LeadsToOne tied tied soleManager where
  resource := by decide +kernel
  relationship := by decide +kernel
  leads := by decide +kernel
  one := rfl
  columns := fun _ _ _ h => by cases h

/-- The manager of the third employee is deleted if he goes first, but not if he is replaced. -/
theorem replaced_manager_stays :
    openTied.IsOpen ∧ staffDesk.store.tables.Filed tiedSchema ∧
      tiedSchema.LeadsToOne tied tied soleManager ∧
      "1" ∉ staffDesk.store.tables.memberKeys tiedSchema tied tied employeeRows[2].record soleManager ∧
      let detached := (updateTied 3 "manager" .null).on staffDesk
      let linked := (updateTied 3 "manager" (employee 1)).on detached.2
      let replaced := (updateTied 3 "manager" (employee 1)).on staffDesk
      detached.1.isOk = true ∧ linked.1.isOk = true ∧ replaced.1.isOk = true ∧
        ¬replaced.2.store.tables.Same linked.2.store.tables := by
  refine ⟨isOpen_openTied, filed_tied, leadsToOne_soleManager, by decide +kernel, by decide +kernel,
    by decide +kernel, by decide +kernel, fun hsame => ?_⟩
  have hrows : ∀ {a b : Option Record}, Option.Rel (fun a b : Record => a.same b = true) a b →
      a.isSome = b.isSome := fun h => by cases h <;> rfl
  have hsecond := hrows (hsame.rows "employees" "2")
  revert hsecond
  decide +kernel

end Music

end NestedResources
