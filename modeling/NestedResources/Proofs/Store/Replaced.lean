import NestedResources.Proofs.Store.Removals
import NestedResources.Proofs.Store.Same

/-!
# Replacing the member of a relationship to one entity

A relationship to one entity is kept in columns, on either side. Whoever is detached is no member any more,
be it that columns are cleared or that a row is deleted, and nobody becomes a member on the way. Detaching
by a foreign key of the entity itself changes no more than the columns of that key, so a link that follows
writes what it would have written without (`Progress.link_same`).
-/
namespace NestedResources

/-- A relationship to one entity that is kept in columns. -/
structure Schema.LeadsToOne (s : Schema) (r target : Resource) (rel : Relationship) : Prop where
  resource : s.resource? r.name = some r
  relationship : r.relationship? rel.name = some rel
  leads : s.target? rel = some target
  one : rel.isMany = false
  columns : ∀ table own other, rel.join ≠ .association table own other

namespace Schema.LeadsToOne

variable {s : Schema} {r target : Resource} {rel : Relationship} (hs : s.LeadsToOne r target rel)
include hs

theorem resource_target : s.resource? target.name = some target := resource?_of_target? hs.leads

theorem declares : s.Declares r rel := declares_of_relationship? hs.resource hs.relationship

end Schema.LeadsToOne

/-! ## Columns of one row -/

namespace Tables

/-- The same tables, but for some columns of one row. -/
structure AgreesBut (t : Tables) (name key : String) (columns : List String) (u : Tables) : Prop where
  others : ∀ n k, ¬(n = name ∧ k = key) → u.rowAt? n k = t.rowAt? n k
  row : Option.Rel (fun new old : Record => ∀ c ∉ columns, new.get? c = old.get? c)
    (u.rowAt? name key) (t.rowAt? name key)
  links : ∀ table, u.linksOf table = t.linksOf table

variable {t u v : Tables} {name key : String} {columns : List String}

theorem AgreesBut.refl (t : Tables) (name key : String) (columns : List String) :
    t.AgreesBut name key columns t := by
  refine ⟨fun _ _ _ => rfl, ?_, fun _ => rfl⟩
  cases t.rowAt? name key with
  | none => exact .none
  | some record => exact .some fun _ _ => rfl

theorem AgreesBut.trans (h : t.AgreesBut name key columns u) (k : u.AgreesBut name key columns v) :
    t.AgreesBut name key columns v := by
  refine ⟨fun n l hother => (k.others n l hother).trans (h.others n l hother), ?_,
    fun table => (k.links table).trans (h.links table)⟩
  have hrow := h.row
  have hrow' := k.row
  generalize t.rowAt? name key = old at hrow
  generalize u.rowAt? name key = mid at hrow hrow'
  generalize v.rowAt? name key = new at hrow'
  cases hrow' with
  | none =>
    cases hrow
    exact .none
  | some hlast =>
    cases hrow with
    | some hfirst => exact .some fun c hc => (hlast c hc).trans (hfirst c hc)

theorem AgreesBut.isSome_rowAt? (h : t.AgreesBut name key columns u) {n k : String}
    (hsome : (t.rowAt? n k).isSome = true) : (u.rowAt? n k).isSome = true := by
  by_cases hsame : n = name ∧ k = key
  · obtain ⟨rfl, rfl⟩ := hsame
    have hrow := h.row
    generalize u.rowAt? n k = new at hrow
    generalize t.rowAt? n k = old at hrow hsome
    cases hrow with
    | none => exact hsome
    | some _ => rfl
  · rwa [h.others n k hsame]

end Tables

/-- Columns that were cleared are not set. -/
theorem Record.values?_cleared (record : Record) {columns : List String} (hne : columns ≠ []) :
    (record.cleared columns).values? columns = none := by
  cases hset : (record.cleared columns).values? columns with
  | none => rfl
  | some values =>
    cases columns with
    | nil => exact absurd rfl hne
    | cons column columns =>
      rw [values?, List.mapM_cons] at hset
      obtain ⟨v, hv, -⟩ := Option.bind_eq_some_iff.1 hset
      have hnull := get?_of_value? hv
      rw [get?_cleared, if_pos List.mem_cons_self] at hnull
      cases hnull
      exact absurd rfl (value?_ne_null hv)

namespace Progress

variable {s : Schema} {p q : Progress} {r target : Resource} {rel : Relationship} {i j : Identity}

theorem agreesBut_assign (p : Progress) (name : String) (i : Identity) (columns : List String)
    (values : List Json) :
    p.tables.AgreesBut name i.key columns (p.assign name i columns values).tables := by
  refine ⟨fun n k hother => ?_, ?_, fun table => p.linksOf_assign name i columns values table⟩
  · rw [rowAt?_assign, if_neg hother]
  · rw [rowAt?_assign, if_pos ⟨rfl, rfl⟩]
    cases p.tables.rowAt? name i.key with
    | none => exact .none
    | some record => exact .some fun c hc => record.get?_assign_of_notMem hc values

/-- Columns that differ are the same once they are written. -/
theorem same_assign {name : String} {columns : List String} {values : List Json}
    (h : p.tables.AgreesBut name i.key columns q.tables) (hlength : columns.length ≤ values.length) :
    (p.assign name i columns values).tables.Same (q.assign name i columns values).tables := by
  refine ⟨fun n k => ?_, fun table => ?_⟩
  · rw [rowAt?_assign, rowAt?_assign]
    by_cases hsame : n = name ∧ k = i.key
    · obtain ⟨rfl, rfl⟩ := hsame
      rw [if_pos ⟨rfl, rfl⟩, if_pos ⟨rfl, rfl⟩]
      have hrow := h.row
      generalize q.tables.rowAt? n i.key = new at hrow
      generalize p.tables.rowAt? n i.key = old at hrow
      cases hrow with
      | none => exact .none
      | some hagree => exact .some (Record.same_assign hlength fun c hc => (hagree c hc).symm)
    · rw [if_neg hsame, if_neg hsame, h.others n k hsame]
      exact (Tables.Same.refl p.tables).rows n k
  · rw [linksOf_assign, linksOf_assign, h.links]

theorem tables_assign_congr (h : p.tables = q.tables) (name : String) (i : Identity) (columns : List String)
    (values : List Json) :
    (p.assign name i columns values).tables = (q.assign name i columns values).tables := by
  unfold assign
  rw [h]
  cases q.tables.row? name i with
  | none => exact h
  | some record =>
    dsimp only
    split
    · change p.tables.putRow name i.key _ = q.tables.putRow name i.key _
      rw [h]
    · exact h

/-! ## Commands about one membership -/

/-- The membership of one stored entity in a relationship of another. -/
def membershipOf (r : Resource) (rel : Relationship) (i j : Identity) : LinkChange :=
  ⟨r.name, rel.name, .existing i, .existing j⟩

theorem ends_membershipOf (hr : s.resource? r.name = some r) (hrel : r.relationship? rel.name = some rel)
    (htarget : s.target? rel = some target) (p : Progress) (i j : Identity) :
    Ends s p (membershipOf r rel i j) r target rel i j := ⟨hr, hrel, htarget, rfl, rfl⟩

theorem link_eq_ok (hs : s.LeadsToOne r target rel) (h : p.apply s (.link (membershipOf r rel i j)) = .ok q) :
    ∃ parentRow childRow, p.tables.row? r.name i = some parentRow ∧
      p.tables.row? target.name j = some childRow ∧
      p.attach r target rel i j parentRow childRow = .ok q :=
  (ends_membershipOf hs.resource hs.relationship hs.leads p i j).addMember_eq_ok h

theorem unlink_eq_ok (hs : s.LeadsToOne r target rel)
    (h : p.apply s (.unlink (membershipOf r rel i j)) = .ok q) :
    ∃ record, p.tables.row? r.name i = some record ∧
      ((j.key ∉ p.tables.memberKeys s r target record rel ∧ q = p) ∨
        (rel.cascade = .detach ∧ q = p.detach r target rel i j) ∨
        (rel.cascade = .delete ∧ q = (p.detach r target rel i j).removeEntity s target j)) ∧
      p.tables.Fades (p.detach r target rel i j).tables := by
  have hends := ends_membershipOf hs.resource hs.relationship hs.leads p i j
  obtain ⟨record, hrow, hq⟩ := hends.dropMember_eq_ok h
  have hfades := (edits_detach hends).2
  refine ⟨record, hrow, ?_, hfades⟩
  split at hq
  · refine .inr ?_
    cases hcascade : rel.cascade with
    | delete =>
      rw [hcascade, if_pos rfl] at hq
      exact .inr ⟨rfl, hq⟩
    | detach =>
      rw [hcascade, if_neg (by decide)] at hq
      exact .inl ⟨rfl, hq⟩
  · rename_i hnot
    exact .inl ⟨fun hmem => hnot (isMember_eq_true.2 hmem), hq⟩

/-- An entity whose own foreign key is cleared has no members. -/
theorem memberKeys_clear_own (hs : s.LeadsToOne r target rel) {own referenced : List String}
    (hjoin : rel.join = .foreignKey own referenced) {record : Record}
    (hrow : (p.clear r.name i own).tables.row? r.name i = some record) :
    (p.clear r.name i own).tables.memberKeys s r target record rel = [] := by
  obtain ⟨hne, -⟩ := (hs.declares.hasKey_own hjoin).columns
  rw [Tables.row?, rowAt?_clear, if_pos ⟨rfl, rfl⟩] at hrow
  obtain ⟨old, -, rfl⟩ := Option.map_eq_some_iff.1 hrow
  have hvalues := old.values?_cleared hne
  rw [Tables.memberKeys, Tables.members]
  simp only [hs.leads, hjoin, hvalues, List.filterMap_nil, List.map_nil]

/-- An entity whose foreign key is cleared is no member. -/
theorem notMem_memberKeys_clear_held (hs : s.LeadsToOne r target rel) {own held : List String}
    (hjoin : rel.join = .reverse own held) (hkeyed : p.tables.Keyed target) {record : Record} :
    j.key ∉ (p.clear target.name j held).tables.memberKeys s r target record rel := by
  intro hmem
  obtain ⟨hne, hlength⟩ := (hs.declares.hasKey_held hjoin).columns
  obtain ⟨row, hmember, k, hk, hkey⟩ := Tables.mem_memberKeys.1 hmem
  have hfades := (Deletion.later_clear ⟨p, []⟩ target.name j held).fades
  obtain ⟨filed, hrow⟩ := Tables.mem_rowsOf.1 (Tables.mem_rowsOf_of_mem_members hs.leads hmember)
  obtain rfl : k.key = filed := (hkeyed.of_fades hfades) filed row k hrow hk
  rw [rowAt?_clear, if_pos ⟨rfl, hkey⟩] at hrow
  obtain ⟨old, -, rfl⟩ := Option.map_eq_some_iff.1 hrow
  simp only [Tables.members, hs.leads, hjoin] at hmember
  cases hwanted : record.values? own with
  | none =>
    rw [hwanted] at hmember
    cases hmember
  | some wanted =>
    rw [hwanted] at hmember
    have hholds := (List.mem_filter.1 hmember).2
    have hlengths : wanted.length = held.length := (Record.length_values? hwanted).trans hlength.symm
    cases held with
    | nil => exact hne rfl
    | cons column columns =>
      cases wanted with
      | nil => cases hlengths
      | cons w ws =>
        obtain ⟨v, hv, hsame⟩ := Record.hasValues_iff.1 hholds (column, w) List.mem_cons_self
        rw [Record.get?_cleared, if_pos List.mem_cons_self] at hv
        cases hv
        rw [Record.sameValue_null (Record.ne_null_of_values? hwanted w List.mem_cons_self)] at hsame
        cases hsame

/-- Whoever is detached is no member any more, and nobody becomes one. -/
theorem unlink_gone (hs : s.LeadsToOne r target rel) (hkeyed : p.tables.Keyed target)
    (h : p.apply s (.unlink (membershipOf r rel i j)) = .ok q) :
    p.tables.Fades q.tables ∧ ∀ record, q.tables.row? r.name i = some record →
      j.key ∉ q.tables.memberKeys s r target record rel := by
  obtain ⟨old, hold, hq, hfades⟩ := unlink_eq_ok hs h
  rcases hq with ⟨hnot, rfl⟩ | ⟨hcascade, rfl⟩ | ⟨hcascade, rfl⟩
  · refine ⟨.refl _, fun record hrow => ?_⟩
    cases hold.symm.trans hrow
    exact hnot
  · refine ⟨hfades, fun record hrow hmem => ?_⟩
    cases hjoin : rel.join with
    | foreignKey own referenced =>
      simp only [detach, hjoin] at hrow hmem
      rw [memberKeys_clear_own hs hjoin hrow] at hmem
      cases hmem
    | reverse own held =>
      simp only [detach, hjoin, hcascade, if_true] at hmem
      exact notMem_memberKeys_clear_held hs hjoin hkeyed hmem
    | association table own other => exact hs.columns table own other hjoin
  · have hgone := (p.detach r target rel i j).fades_removeEntity hs.resource_target j
    have hall := hfades.trans hgone
    refine ⟨hall, fun record hrow hmem => ?_⟩
    obtain ⟨row, hmember, k, hk, hkey⟩ := Tables.mem_memberKeys.1 hmem
    obtain ⟨filed, hfound⟩ := Tables.mem_rowsOf.1 (Tables.mem_rowsOf_of_mem_members hs.leads hmember)
    obtain rfl : k.key = filed := (hkeyed.of_fades hall) filed row k hfound hk
    have hmissing := (p.detach r target rel i j).row?_removeEntity s target j
    rw [Tables.row?, ← hkey] at hmissing
    cases hmissing.symm.trans hfound

/-! ## Detaching several -/

/-- The commands that detach entities one after the other. -/
def unlinks (r : Resource) (rel : Relationship) (i : Identity) (items : List Identity) : List Command :=
  items.map fun j => .unlink (membershipOf r rel i j)

theorem link_notMem_unlinks (items : List Identity) (change : LinkChange) :
    Command.link change ∉ unlinks r rel i items := by
  intro h
  obtain ⟨j, -, hj⟩ := List.mem_map.1 h
  cases hj

theorem unlinks_gone (hs : s.LeadsToOne r target rel) {items : List Identity}
    (hkeyed : p.tables.Keyed target) (h : (unlinks r rel i items).foldlM (Progress.apply s) p = .ok q) :
    p.tables.Fades q.tables ∧ ∀ j ∈ items, ∀ record, q.tables.row? r.name i = some record →
      j.key ∉ q.tables.memberKeys s r target record rel := by
  induction items generalizing p with
  | nil =>
    cases h
    exact ⟨.refl _, fun j hj => (List.not_mem_nil hj).elim⟩
  | cons j items ih =>
    obtain ⟨next, hnext, hrest⟩ := Except.bind_eq_ok.1 h
    obtain ⟨hfirst, hgone⟩ := unlink_gone hs hkeyed hnext
    obtain ⟨hlast, hothers⟩ := ih (hkeyed.of_fades hfirst) hrest
    refine ⟨hfirst.trans hlast, fun k hk record hrow hmem => ?_⟩
    rcases List.mem_cons.1 hk with rfl | hk
    · obtain ⟨old, hold, hfades⟩ := hlast.rows r.name i.key record hrow
      exact hgone old hold (hlast.memberKeys hfades hmem)
    · exact hothers k hk record hrow hmem

/-- Only members that are not detached are left. -/
theorem memberKeys_unlinks (hs : s.LeadsToOne r target rel) {items : List Identity} {record new : Record}
    (hkeyed : p.tables.Keyed target) (hrow : p.tables.row? r.name i = some record)
    (h : (unlinks r rel i items).foldlM (Progress.apply s) p = .ok q)
    (hnew : q.tables.row? r.name i = some new) :
    ∀ key ∈ q.tables.memberKeys s r target new rel,
      key ∈ p.tables.memberKeys s r target record rel ∧ key ∉ items.map Identity.key := by
  obtain ⟨hfades, hgone⟩ := unlinks_gone hs hkeyed h
  intro key hmem
  obtain ⟨old, hold, hfaded⟩ := hfades.rows r.name i.key new hnew
  have hsame : p.tables.rowAt? r.name i.key = some record := hrow
  cases hold.symm.trans hsame
  refine ⟨hfades.memberKeys hfaded hmem, fun hitem => ?_⟩
  obtain ⟨j, hj, rfl⟩ := List.mem_map.1 hitem
  exact hgone j hj new hnew hmem

/-- Detaching by a foreign key of the entity itself changes no more than its columns. -/
theorem unlinks_agree (hs : s.LeadsToOne r target rel) {own referenced : List String}
    (hjoin : rel.join = .foreignKey own referenced) (hdetach : rel.cascade = .detach) {items : List Identity}
    (h : (unlinks r rel i items).foldlM (Progress.apply s) p = .ok q) :
    p.tables.AgreesBut r.name i.key own q.tables := by
  induction items generalizing p with
  | nil =>
    cases h
    exact .refl _ _ _ _
  | cons j items ih =>
    obtain ⟨next, hnext, hrest⟩ := Except.bind_eq_ok.1 h
    refine Tables.AgreesBut.trans ?_ (ih hrest)
    obtain ⟨old, -, hq, -⟩ := unlink_eq_ok hs hnext
    rcases hq with ⟨-, rfl⟩ | ⟨-, rfl⟩ | ⟨hdelete, -⟩
    · exact .refl _ _ _ _
    · simp only [detach, hjoin]
      exact p.agreesBut_assign r.name i own _
    · rw [hdetach] at hdelete
      cases hdelete

/-- Detaching without deleting changes no rows but those of the entity and of whoever is detached. -/
theorem rowAt?_unlinks (hs : s.LeadsToOne r target rel) (hdetach : rel.cascade = .detach)
    {items : List Identity} (h : (unlinks r rel i items).foldlM (Progress.apply s) p = .ok q)
    {name key : String} (hend : ¬(name = r.name ∧ key = i.key))
    (hitems : name = target.name → key ∉ items.map Identity.key) :
    q.tables.rowAt? name key = p.tables.rowAt? name key := by
  induction items generalizing p with
  | nil =>
    cases h
    rfl
  | cons j items ih =>
    obtain ⟨next, hnext, hrest⟩ := Except.bind_eq_ok.1 h
    rw [ih hrest fun hname hkey => hitems hname (List.mem_cons_of_mem _ hkey)]
    obtain ⟨old, -, hq, -⟩ := unlink_eq_ok hs hnext
    rcases hq with ⟨-, rfl⟩ | ⟨-, rfl⟩ | ⟨hdelete, -⟩
    · rfl
    · cases hjoin : rel.join with
      | foreignKey own referenced =>
        simp only [detach, hjoin]
        rw [rowAt?_clear, if_neg hend]
      | reverse own held =>
        simp only [detach, hjoin, hdetach, if_true]
        rw [rowAt?_clear, if_neg]
        rintro ⟨hname, hkey⟩
        exact hitems hname (hkey ▸ List.mem_cons_self)
      | association table own other => exact absurd hjoin (hs.columns table own other)
    · rw [hdetach] at hdelete
      cases hdelete

/-! ## Linking afterwards -/

/-- The commands that make an entity the member. Others are detached first, but for a foreign key of the
entity itself, which is overwritten. -/
def replacement (r : Resource) (rel : Relationship) (i j : Identity) (others : List Identity) :
    List Command :=
  (if rel.join.isForeignKey then [] else unlinks r rel i others) ++ [.link (membershipOf r rel i j)]

/-- A replacement links no more than the entity that it is about. -/
theorem eq_of_mem_replacement {others : List Identity} {change : LinkChange}
    (h : Command.link change ∈ replacement r rel i j others) : change = membershipOf r rel i j := by
  rcases List.mem_append.1 h with hunlink | hlink
  · split at hunlink
    · cases hunlink
    · exact absurd hunlink (link_notMem_unlinks others change)
  · cases List.mem_singleton.1 hlink
    rfl

theorem replacement_of_own {own referenced : List String} (hjoin : rel.join = .foreignKey own referenced)
    {others : List Identity} (h : (replacement r rel i j others).foldlM (Progress.apply s) p = .ok q) :
    p.apply s (.link (membershipOf r rel i j)) = .ok q := by
  rw [replacement, hjoin, Join.isForeignKey, if_pos rfl] at h
  obtain ⟨next, hnext, hdone⟩ := Except.bind_eq_ok.1 h
  cases hdone
  exact hnext

theorem replacement_of_held {own held : List String} (hjoin : rel.join = .reverse own held)
    {others : List Identity} (h : (replacement r rel i j others).foldlM (Progress.apply s) p = .ok q) :
    ∃ between, (unlinks r rel i others).foldlM (Progress.apply s) p = .ok between ∧
      between.apply s (.link (membershipOf r rel i j)) = .ok q := by
  have hother : rel.join.isForeignKey = false := by rw [hjoin]; rfl
  rw [replacement, hother, if_neg Bool.false_ne_true, List.foldlM_append] at h
  obtain ⟨between, hbetween, h⟩ := Except.bind_eq_ok.1 h
  obtain ⟨next, hnext, hdone⟩ := Except.bind_eq_ok.1 h
  cases hdone
  exact ⟨between, hbetween, hnext⟩

/-- A link by a foreign key of the entity writes that key. -/
theorem link_of_own (hs : s.LeadsToOne r target rel) {own referenced : List String}
    (hjoin : rel.join = .foreignKey own referenced)
    (h : p.apply s (.link (membershipOf r rel i j)) = .ok q) :
    ∃ record childRow values, p.tables.row? r.name i = some record ∧
      p.tables.row? target.name j = some childRow ∧ childRow.values? referenced = some values ∧
      q = p.assign r.name i own values := by
  obtain ⟨record, childRow, hrow, hchild, hattach⟩ := link_eq_ok hs h
  obtain ⟨values, hvalues, hq⟩ := (attach_own hjoin).1 hattach
  exact ⟨record, childRow, values, hrow, hchild, hvalues, hq⟩

/-- A link by a foreign key of the other entity writes that one. -/
theorem link_of_held (hs : s.LeadsToOne r target rel) {own held : List String}
    (hjoin : rel.join = .reverse own held) (h : p.apply s (.link (membershipOf r rel i j)) = .ok q) :
    ∃ record childRow values, p.tables.row? r.name i = some record ∧
      p.tables.row? target.name j = some childRow ∧ record.values? own = some values ∧
      q = p.assign target.name j held values := by
  obtain ⟨record, childRow, hrow, hchild, hattach⟩ := link_eq_ok hs h
  obtain ⟨values, hvalues, hq⟩ := (attach_held hjoin).1 hattach
  exact ⟨record, childRow, values, hrow, hchild, hvalues, hq⟩

/-- A link by a foreign key of the other entity does the same to tables that are equal. -/
theorem link_tables_congr {a b : Progress} (hs : s.LeadsToOne r target rel) {own held : List String}
    (hjoin : rel.join = .reverse own held) (htables : p.tables = q.tables)
    (ha : p.apply s (.link (membershipOf r rel i j)) = .ok a)
    (hb : q.apply s (.link (membershipOf r rel i j)) = .ok b) : a.tables = b.tables := by
  obtain ⟨record, -, values, hrow, -, hvalues, rfl⟩ := link_of_held hs hjoin ha
  obtain ⟨record', -, values', hrow', -, hvalues', rfl⟩ := link_of_held hs hjoin hb
  rw [← htables, hrow] at hrow'
  cases hrow'
  cases hvalues.symm.trans hvalues'
  exact tables_assign_congr htables ..

/-- A link overwrites a foreign key of the entity whatever it held, so it leaves the same tables. -/
theorem link_same {a b : Progress} (hs : s.LeadsToOne r target rel) {own referenced : List String}
    (hjoin : rel.join = .foreignKey own referenced) (hagree : p.tables.AgreesBut r.name i.key own q.tables)
    (hfades : p.tables.Fades q.tables) (ha : p.apply s (.link (membershipOf r rel i j)) = .ok a)
    (hb : q.apply s (.link (membershipOf r rel i j)) = .ok b) : a.tables.Same b.tables := by
  obtain ⟨-, old, values, -, hold, hvalues, rfl⟩ := link_of_own hs hjoin ha
  obtain ⟨-, new, values', -, hnew, hvalues', rfl⟩ := link_of_own hs hjoin hb
  obtain ⟨old', hold', hfaded⟩ := hfades.rows target.name j.key new hnew
  cases hold'.symm.trans hold
  cases (hfaded.values? hvalues').symm.trans hvalues
  have hlength : own.length ≤ values.length := by
    rw [Record.length_values? hvalues]
    exact Nat.le_of_eq (hs.declares.hasKey_own hjoin).columns.2
  exact same_assign hagree hlength

end Progress

end NestedResources
