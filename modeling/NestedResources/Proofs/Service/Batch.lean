import NestedResources.Proofs.Service.NonInterference
import NestedResources.Proofs.Write.Scalars

/-!
# One batch and the sequence of its items

A batch is planned against the tables as they were, with what the walk has learnt since. As long as its
items write scalars only, what is known of an entity is what the planned commands make of it
(`WalkSite.Follows`), so the batch leaves the tables that its items leave when they are committed one by
one. Links do not show in what is known of an entity, and a later write to the column of a link may be
lost.
-/
namespace NestedResources

namespace WalkSite

open Walking

variable {site : WalkSite} {w after : Walk} {r : Resource}

/-! ## What is known of entities -/

/-- What a walk knows of the entities of a resource is what stands in the tables that its commands
lead to. Rows that it has not met stand there as they were. -/
structure Follows (r : Resource) (stored : Tables) (w : Walk) (p : Progress) : Prop where
  filed : p.tables.FiledExactly r
  met : ∀ key k, firstOf? (r.name, key) w.known = some k →
    p.tables.rowAt? r.name key = some k.record ∧ ∃ i, p.resolve k.reference = .ok i ∧ i.key = key
  unmet : ∀ key record, firstOf? (r.name, key) w.known = none →
    stored.rowAt? r.name key = some record → p.tables.rowAt? r.name key = some record

namespace Follows

variable {p q : Progress} {stored : Tables} {members : List (String × Json)} {known : Option Known}

/-- A walk that has not begun knows nothing, and the tables are as they were. -/
theorem start (h : p.tables.FiledExactly r) : Follows r p.tables {} p :=
  ⟨h, fun _ _ hk => (by cases hk), fun _ _ _ hrow => hrow⟩

theorem congr {between : Walk} (h : Follows r stored w p) (hknown : between.known = w.known) :
    Follows r stored between p :=
  ⟨h.filed, hknown ▸ h.met, hknown ▸ h.unmet⟩

/-- A walk that meets a row that stands in the tables goes on knowing them. -/
theorem learn (h : Follows r stored w p) {i : Identity} {record : Record}
    (hrow : p.tables.row? r.name i = some record) :
    Follows r stored { w with known := ((r.name, i.key), ⟨.existing i, record, false⟩) :: w.known } p := by
  refine ⟨h.filed, fun key k hk => ?_, fun key other hnew => ?_⟩
  · by_cases hkey : key = i.key
    · subst hkey
      rw [firstOf?_cons_self] at hk
      cases hk
      exact ⟨hrow, i, rfl, rfl⟩
    · rw [firstOf?_cons_of_ne fun he => hkey (Prod.mk.inj he).2.symm] at hk
      exact h.met key k hk
  · by_cases hkey : key = i.key
    · subst hkey
      rw [firstOf?_cons_self] at hnew
      cases hnew
    · rw [firstOf?_cons_of_ne fun he => hkey (Prod.mk.inj he).2.symm] at hnew
      exact h.unmet key other hnew

/-- What is found for an object stands in the tables, under the key of its identity. -/
theorem finds {found : Walk} (h : Follows r site.tables w p)
    (hr : site.registry.schema.resource? r.name = some r) (hnames : r.NamesExactly)
    (hfiled : site.tables.FiledExactly r)
    (hfinds : site.Finds r (r.identityIn? members) w known found) :
    Follows r site.tables found p ∧ found.plan = w.plan ∧ ∀ k, known = some k →
      ∃ i j, r.identityIn? members = some i ∧ p.tables.row? r.name i = some k.record ∧
        p.resolve k.reference = .ok j ∧ j.key = i.key := by
  cases hidentity : r.identityIn? members with
  | none =>
    rw [hidentity] at hfinds
    obtain ⟨rfl, rfl⟩ := hfinds
    exact ⟨h, rfl, fun k hk => by cases hk⟩
  | some i =>
    rw [hidentity] at hfinds
    have hlookup : (site.lookup r i).run.run w = (.ok known, found) := hfinds
    cases hmet : firstOf? (r.name, i.key) w.known with
    | some k =>
      obtain ⟨_, _, hget, h₁⟩ := bind_eq_ok hlookup
      cases hget
      simp only [hmet] at h₁
      cases h₁
      refine ⟨h, rfl, fun k' hk' => ?_⟩
      cases hk'
      obtain ⟨hrow, j, hj, hkey⟩ := h.met i.key k hmet
      exact ⟨i, j, rfl, hrow, hj, hkey⟩
    | none =>
      rcases lookup_unmet hr hnames hfiled hidentity hmet hlookup with
        ⟨record, rfl, hrow, rfl⟩ | ⟨rfl, rfl⟩
      · have hstands := h.unmet i.key record hmet hrow
        refine ⟨h.learn hstands, rfl, fun k hk => ?_⟩
        cases hk
        exact ⟨i, i, rfl, hstands, rfl, rfl⟩
      · exact ⟨h, rfl, fun k hk => by cases hk⟩

/-- A row is filed that the walk knows from then on, or has nothing to do with. -/
theorem file (h : Follows r stored w p) (key : String) (record : Record)
    (htables : q.tables = p.tables.putRow r.name key record)
    (hidentity : ∃ i, r.identityOf? record = some i ∧ i.key = key ∧ i.IsExact)
    (hresolve : ∀ ref i, p.resolve ref = .ok i → q.resolve ref = .ok i)
    (hnew : ∀ k, firstOf? (r.name, key) after.known = some k →
      k.record = record ∧ ∃ i, q.resolve k.reference = .ok i ∧ i.key = key)
    (hothers : ∀ other, other ≠ key →
      firstOf? (r.name, other) after.known = firstOf? (r.name, other) w.known)
    (hfree : firstOf? (r.name, key) after.known = none → stored.rowAt? r.name key = none) :
    Follows r stored after q := by
  refine ⟨fun other row hrow => ?_, fun other k hk => ?_, fun other row hunmet hrow => ?_⟩
  · rw [htables] at hrow
    by_cases hother : other = key
    · subst hother
      rw [Tables.rowAt?_putRow_self] at hrow
      cases hrow
      exact hidentity
    · rw [Tables.rowAt?_putRow_of_key_ne _ _ _ hother] at hrow
      exact h.filed other row hrow
  · rw [htables]
    by_cases hother : other = key
    · subst hother
      obtain ⟨hrecord, hreference⟩ := hnew k hk
      rw [Tables.rowAt?_putRow_self, hrecord]
      exact ⟨rfl, hreference⟩
    · rw [Tables.rowAt?_putRow_of_key_ne _ _ _ hother]
      obtain ⟨hrow, i, hi, hkey⟩ := h.met other k (hothers other hother ▸ hk)
      exact ⟨hrow, i, hresolve _ i hi, hkey⟩
  · rw [htables]
    by_cases hother : other = key
    · subst hother
      rw [hfree hunmet] at hrow
      cases hrow
    · rw [Tables.rowAt?_putRow_of_key_ne _ _ _ hother]
      exact h.unmet other row (hothers other hother ▸ hunmet) hrow

/-- A row is filed for an entity that the walk knows from then on. -/
theorem fileKnown (h : Follows r stored w p) {i : Identity} {k : Known}
    (htables : q.tables = p.tables.putRow r.name i.key k.record)
    (hidentity : ∃ j, r.identityOf? k.record = some j ∧ j.key = i.key ∧ j.IsExact)
    (hresolve : ∀ ref j, p.resolve ref = .ok j → q.resolve ref = .ok j)
    (hreference : ∃ j, q.resolve k.reference = .ok j ∧ j.key = i.key)
    (hknown : after.known = ((r.name, i.key), k) :: w.known) : Follows r stored after q := by
  have hself : firstOf? (r.name, i.key) after.known = some k := by rw [hknown, firstOf?_cons_self]
  refine h.file i.key k.record htables hidentity hresolve (fun k' hk' => ?_) (fun other hother => ?_)
    (fun hnone => ?_)
  · cases hself.symm.trans hk'
    exact ⟨rfl, hreference⟩
  · rw [hknown]
    exact firstOf?_cons_of_ne (fun he => hother (Prod.mk.inj he).2.symm) _ _
  · cases hself.symm.trans hnone

/-- A row is filed under a key that was free, and the walk learns nothing of it. -/
theorem fileUnknown (h : Follows r stored w p) {key : String} {record : Record}
    (htables : q.tables = p.tables.putRow r.name key record) (hfree : p.tables.rowAt? r.name key = none)
    (hidentity : ∃ i, r.identityOf? record = some i ∧ i.key = key ∧ i.IsExact)
    (hresolve : ∀ ref i, p.resolve ref = .ok i → q.resolve ref = .ok i)
    (hknown : after.known = w.known) : Follows r stored after q := by
  refine h.file key record htables hidentity hresolve (fun k hk => ?_) (fun other _ => by rw [hknown])
    (fun hnone => ?_)
  · rw [hknown] at hk
    cases hfree.symm.trans (h.met key k hk).1
  · rw [hknown] at hnone
    cases hstored : stored.rowAt? r.name key with
    | none => rfl
    | some row => cases hfree.symm.trans (h.unmet key row hnone hstored)

/-- A walk that has planned a creation knows the entity from then on by the identity that its document
names. Without one it knows nothing of the new row. -/
theorem create (h : Follows r stored w p) {schema : Schema} (hr : schema.resource? r.name = some r)
    (hnames : r.NamesExactly) (hnodup : (members.map (·.1)).Nodup) {values : Record}
    (hvalues : r.values? none members = some values)
    (hplaces : Places r (r.identityIn? members) none values w after)
    (happly : p.createRow schema w.plan.pending r.name values = .ok q) : Follows r stored after q := by
  have hknown := hplaces.known
  cases hidentity : r.identityIn? members with
  | some i =>
    rw [hidentity] at hknown
    have hi := hnames.identityOf?_values hnodup hvalues hidentity
    obtain ⟨hslot, hrow, rfl⟩ := Progress.createRow_named hr hi happly
    refine h.fileKnown rfl ⟨i, hi, rfl, (Resource.isExact_of_identityIn? hnames.exact hidentity).1⟩
      (fun _ _ => Progress.resolve_created rfl) ⟨i, ?_, rfl⟩ hknown
    rw [hslot]
    simp [Progress.resolve]
  | none =>
    rw [hidentity] at hknown
    replace hknown : after.known = w.known := hknown
    obtain ⟨record, i, hi, hexact, hrow, htables, hcreated⟩ := hnames.files hr hvalues happly
    exact h.fileUnknown htables hrow ⟨i, hi, rfl, hexact⟩
      (fun _ _ => Progress.resolve_created hcreated) hknown

/-- What a document plans for an entity that was found is an update of its row, if there is anything to
write. The walk knows the written row from then on. -/
theorem update (h : Follows r stored w p) {schema : Schema} (hr : schema.resource? r.name = some r)
    (hnames : r.NamesExactly) {k : Known} {i j : Identity} (hi : r.identityIn? members = some i)
    (hrow : p.tables.row? r.name i = some k.record) (hj : p.resolve k.reference = .ok j)
    (hkey : j.key = i.key) {values : Record} (hvalues : r.values? (some k.record) members = some values)
    (hplaces : Places r (r.identityIn? members) (some k) values w after)
    (happly : (placed r w.plan.pending values (some k)).foldlM (Progress.apply schema) p = .ok q) :
    Follows r stored after q ∧ q.store = if values.isEmpty then p.store
      else (p.writeRow r.name i.key (k.record.union values)).store := by
  have hknown := hplaces.known
  rw [hi] at hknown
  cases hempty : values.isEmpty with
  | true =>
    rw [placed, hempty, if_pos rfl] at happly
    cases happly
    rw [learnt, hempty, if_pos rfl] at hknown
    exact ⟨h.congr hknown, rfl⟩
  | false =>
    rw [placed, hempty, if_neg Bool.false_ne_true, List.foldlM_cons] at happly
    obtain ⟨_, hupdate, hdone⟩ := Except.bind_eq_ok.1 happly
    cases hdone
    rw [Tables.row?, ← hkey] at hrow
    obtain rfl := Progress.updateRow_eq_ok hr hj hrow (Resource.same_union_of_values? hvalues hempty) hupdate
    rw [learnt, hempty, if_neg Bool.false_ne_true] at hknown
    obtain ⟨own, hown, hownKey, hexact⟩ := h.filed j.key k.record hrow
    rw [hkey]
    exact ⟨h.fileKnown (k := { k with record := k.record.union values }) rfl
      ⟨own, (hnames.identityOf?_union hvalues).trans hown, hownKey.trans hkey, hexact⟩ (fun _ _ => id)
      ⟨j, hj, hkey⟩ hknown, rfl⟩

end Follows

end WalkSite

/-! ## What items do to a store -/

/-- What a document that writes scalars does to a store: it creates a row, or writes over the row of its
identity. -/
inductive Resource.Writes (r : Resource) (schema : Schema) (members : List (String × Json)) (s : Store) :
    Store → Prop
  | create {values : Record} {p q : Progress} {slot : Nat}
      (hfree : (r.identityIn? members).bind (s.tables.row? r.name) = none)
      (hvalues : r.values? none members = some values) (hp : p.store = s)
      (hcreate : p.createRow schema slot r.name values = .ok q) : Writes r schema members s q.store
  | update {i : Identity} {record values : Record} (hi : r.identityIn? members = some i)
      (hrow : s.tables.row? r.name i = some record)
      (hvalues : r.values? (some record) members = some values) :
      Writes r schema members s (if values.isEmpty then s
        else (Progress.writeRow { store := s } r.name i.key (record.union values)).store)

/-- What objects do to a store one after the other. -/
inductive Resource.WritesAll (r : Resource) (schema : Schema) : List Json → Store → Store → Prop
  | nil (s : Store) : WritesAll r schema [] s s
  | cons {members : List (String × Json)} {items : List Json} {s between after : Store}
      (hfirst : r.Writes schema members s between) (hrest : WritesAll r schema items between after) :
      WritesAll r schema (.obj members :: items) s after

namespace Resource

variable {r : Resource} {schema : Schema}

/-- A store and a document leave no choice. -/
theorem Writes.unique {members : List (String × Json)} {s a b : Store}
    (hr : schema.resource? r.name = some r) (ha : r.Writes schema members s a)
    (hb : r.Writes schema members s b) : a = b := by
  cases ha with
  | create hfree hvalues hp hcreate =>
    cases hb with
    | create _ hvalues' hp' hcreate' =>
      cases hvalues.symm.trans hvalues'
      exact (Progress.createRow_agrees hr (hp'.trans hp.symm) hcreate hcreate').1.symm
    | update hi hrow _ =>
      rw [hi, Option.bind_some, hrow] at hfree
      cases hfree
  | update hi hrow hvalues =>
    cases hb with
    | create hfree _ _ _ =>
      rw [hi, Option.bind_some, hrow] at hfree
      cases hfree
    | update hi' hrow' hvalues' =>
      cases hi.symm.trans hi'
      cases hrow.symm.trans hrow'
      cases hvalues.symm.trans hvalues'
      rfl

theorem WritesAll.unique {items : List Json} {s a b : Store} (hr : schema.resource? r.name = some r)
    (ha : r.WritesAll schema items s a) (hb : r.WritesAll schema items s b) : a = b := by
  induction ha with
  | nil =>
    cases hb
    rfl
  | cons hfirst _ ih =>
    cases hb with
    | cons hfirst' hrest' =>
      cases hfirst.unique hr hfirst'
      exact ih hrest'

end Resource

namespace WalkSite

open Walking

variable {site : WalkSite} {w after : Walk} {r : Resource} {p q : Progress}

/-- A walk that follows the tables goes on following them over an object, and does to the store what the
object says. -/
theorem Follows.visit {members : List (String × Json)} {path : String} {visited : Option Visited}
    {commands : List Command} (h : Follows r site.tables w p)
    (hr : site.registry.schema.resource? r.name = some r) (hnames : r.NamesExactly)
    (hfiled : site.tables.FiledExactly r) (hscalars : r.WritesScalars members)
    (hvisit : (site.visit r path (.root .collection) .patch (.obj members)).run.run w = (.ok visited, after))
    (hclean : after.issues = []) (hcommands : after.plan.commands = w.plan.commands ++ commands)
    (happly : commands.foldlM (Progress.apply site.registry.schema) p = .ok q) :
    Follows r site.tables after q ∧ r.Writes site.registry.schema members p.store q.store := by
  obtain ⟨known, found, values, between, hfinds, hvalues, hplan, hknown, hplaces⟩ :=
    visit_scalars hscalars hvisit hclean
  obtain ⟨hfound, hsame, hstands⟩ := h.finds hr hnames hfiled hfinds
  have hbetween : Follows r site.tables between p := hfound.congr hknown
  have hplaced := hplaces.commands
  rw [hplan, hsame, hcommands] at hplaced
  obtain rfl := List.append_cancel_left hplaced
  rw [← hsame, ← hplan] at happly
  cases known with
  | none =>
    rw [placed, List.foldlM_cons] at happly
    obtain ⟨_, hcreate, hdone⟩ := Except.bind_eq_ok.1 happly
    cases hdone
    refine ⟨hbetween.create hr hnames hscalars.nodup hvalues hplaces hcreate, .create ?_ hvalues rfl hcreate⟩
    cases hidentity : r.identityIn? members with
    | none => rfl
    | some i =>
      have hi := hnames.identityOf?_values hscalars.nodup hvalues hidentity
      exact (Progress.createRow_named hr hi hcreate).2.1
  | some k =>
    obtain ⟨i, j, hi, hrow, hj, hkey⟩ := hstands k rfl
    obtain ⟨hfollows, hstore⟩ := hbetween.update hr hnames hi hrow hj hkey hvalues hplaces happly
    refine ⟨hfollows, ?_⟩
    rw [hstore]
    exact .update hi hrow hvalues

/-- A batch does to the store what its items do one after the other. -/
theorem Follows.visitRoots {index : Nat} {items : List Json} {visited : List Visited}
    {commands : List Command} (h : Follows r site.tables w p) (hw : site.Sound w)
    (hr : site.registry.schema.resource? r.name = some r) (hnames : r.NamesExactly)
    (hfiled : site.tables.FiledExactly r)
    (hscalars : ∀ members, .obj members ∈ items → r.WritesScalars members)
    (hvisit : (site.visitRoots r .collection index items).run.run w = (.ok visited, after))
    (hclean : after.issues = []) (hcommands : after.plan.commands = w.plan.commands ++ commands)
    (happly : commands.foldlM (Progress.apply site.registry.schema) p = .ok q) :
    r.WritesAll site.registry.schema items p.store q.store ∧ q.tables.FiledExactly r := by
  induction items generalizing index w p visited commands with
  | nil =>
    cases hvisit
    obtain rfl := List.append_right_eq_self.1 hcommands.symm
    cases happly
    exact ⟨.nil _, h.filed⟩
  | cons item items ih =>
    obtain ⟨first, between, hfirst, h₁⟩ := bind_eq_ok hvisit
    obtain ⟨others, _, hothers, h₂⟩ := bind_eq_ok h₁
    cases h₂
    have hsteps := (visit_steps hw hr (admits_root _ r .collection) item hfirst).1
    have hbetween := hsteps.sound hw
    have hextends := (visitRoots_steps hbetween hr hothers).1.extends
    have hcleanFirst : between.issues = [] := List.prefix_nil.1 (hclean ▸ hextends.2)
    obtain ⟨members, rfl⟩ := exists_members_of_visit hfirst hcleanFirst
    obtain ⟨own, hown⟩ := hsteps.extends.1
    obtain ⟨rest, hrest⟩ := hextends.1
    rw [← hrest, ← hown, List.append_assoc] at hcommands
    obtain rfl := List.append_cancel_left hcommands
    rw [List.foldlM_append] at happly
    obtain ⟨done, hdone, happlyRest⟩ := Except.bind_eq_ok.1 happly
    obtain ⟨hfollows, hwrites⟩ := h.visit hr hnames hfiled (hscalars members List.mem_cons_self) hfirst
      hcleanFirst hown.symm hdone
    obtain ⟨hwritesRest, hafter⟩ := ih hfollows hbetween
      (fun members hm => hscalars members (List.mem_cons_of_mem _ hm)) hothers hrest.symm happlyRest
    exact ⟨.cons hwrites hwritesRest, hafter⟩

end WalkSite

/-! ## Batches -/

namespace WriteOp

open Walking

variable {g : Registry} {ctx : Context} {r : Resource} {d after : Desk} {items : List Json}

/-- A batch that is committed has done to the store what its items do one after the other. -/
theorem writesAll_of_commit {o : Outcome} (hr : g.schema.resource? r.name = some r)
    (hnames : r.NamesExactly) (hfiled : d.store.tables.FiledExactly r)
    (hscalars : ∀ members, .obj members ∈ items → r.WritesScalars members)
    (h : (Serving.commit g ctx (patchCollection r.name (.arr items)).walk).on d = (.ok o, after)) :
    r.WritesAll g.schema items d.store after.store ∧ after.store.tables.FiledExactly r := by
  obtain ⟨roots, w, p, hrun, hclean, happly, hstore⟩ := Serving.exists_progress_of_commit_ok h
  obtain ⟨r', _, hrequire, h₁⟩ := bind_eq_ok hrun
  obtain ⟨hfound, rfl⟩ := liftM_eq_ok hrequire
  cases hr.symm.trans (Schema.require_eq_ok.1 hfound)
  obtain ⟨visited, _, hvisit, h₂⟩ := bind_eq_ok h₁
  cases h₂
  rw [hstore]
  exact (WalkSite.Follows.start (p := { store := d.store }) hfiled).visitRoots WalkSite.sound_empty hr
    hnames hfiled hscalars hvisit hclean (List.nil_append _).symm happly

/-- Later writes win: a batch of documents that write scalars leaves the store as its items do when they
are committed one by one, if both are let through. -/
theorem batch_eq_sequence {batch sequence : Desk} {o : Outcome} {os : List Outcome}
    (hr : g.schema.resource? r.name = some r) (hnames : r.NamesExactly)
    (hfiled : d.store.tables.FiledExactly r)
    (hscalars : ∀ members, .obj members ∈ items → r.WritesScalars members)
    (hbatch : (Serving.commit g ctx (patchCollection r.name (.arr items)).walk).on d = (.ok o, batch))
    (hsequence : Serving.on (items.mapM fun item =>
      Serving.commit g ctx (patchCollection r.name (.arr [item])).walk) d = (.ok os, sequence)) :
    batch.store = sequence.store := by
  refine (writesAll_of_commit hr hnames hfiled hscalars hbatch).1.unique hr ?_
  clear hbatch
  induction items generalizing d os with
  | nil =>
    cases hsequence
    exact .nil _
  | cons item items ih =>
    rw [List.mapM_cons, Serving.bind_on] at hsequence
    split at hsequence
    · rename_i first between hfirst
      rw [Serving.bind_on] at hsequence
      split at hsequence
      · rename_i rest done hrest
        cases hsequence
        have hone := writesAll_of_commit hr hnames hfiled (fun members hm =>
          hscalars members (List.mem_singleton.1 hm ▸ List.mem_cons_self)) hfirst
        have hrestAll := ih hone.2 (fun members hm => hscalars members (List.mem_cons_of_mem _ hm)) hrest
        obtain ⟨hwrites, -⟩ := hone
        cases hwrites with
        | cons hfirst' hnil =>
          cases hnil
          exact .cons hfirst' hrestAll
      · cases hsequence
    · cases hsequence

end WriteOp

namespace Music

/-- The staff, open to everybody. -/
def openStaff : Registry := { staff with gates := [] }

def staffDesk : Desk := ⟨⟨staffTables employeeRows, 0⟩, []⟩

/-- Gives the third employee one title after the other, and hires somebody who gets a title later on. -/
def titles : List Json := [
  .obj [("employee_id", .int 3), ("title", .str "Lead")],
  .obj [("employee_id", .int 90), ("first_name", .str "Zoe"), ("last_name", .str "Zimmer")],
  .obj [("employee_id", .int 3), ("title", .str "Chief")],
  .obj [("employee_id", .int 90), ("title", .str "Deputy")]]

theorem namesExactly_employees : employees.NamesExactly :=
  ⟨by decide +kernel, by decide +kernel, by decide +kernel⟩

theorem filedExactly_staffDesk : staffDesk.store.tables.FiledExactly employees := by
  decide +kernel

def commitItems (items : List Json) : Serving Outcome :=
  Serving.commit openStaff ⟨.empty⟩ (WriteOp.patchCollection "employees" (.arr items)).walk

theorem writesScalars_titles {members : List (String × Json)} (h : .obj members ∈ titles) :
    employees.WritesScalars members := by
  simp only [titles, List.mem_cons, List.not_mem_nil, or_false, Json.obj.injEq] at h
  rcases h with rfl | rfl | rfl | rfl <;>
    exact ⟨by decide +kernel, fun h => (by cases h), by decide +kernel⟩

theorem batch_eq_sequence_titles :
    ((commitItems titles).on staffDesk).1.isOk = true ∧
      (Serving.on (titles.mapM fun item => commitItems [item]) staffDesk).1.isOk = true ∧
      ((commitItems titles).on staffDesk).2.store =
        (Serving.on (titles.mapM fun item => commitItems [item]) staffDesk).2.store := by
  have hbatch : ((commitItems titles).on staffDesk).1.isOk = true := by decide +kernel
  have hsequence : (Serving.on (titles.mapM fun item => commitItems [item]) staffDesk).1.isOk = true := by
    decide +kernel
  refine ⟨hbatch, hsequence, ?_⟩
  rcases hone : (commitItems titles).on staffDesk with ⟨result, batch⟩
  rcases hmany : Serving.on (titles.mapM fun item => commitItems [item]) staffDesk with ⟨results, sequence⟩
  rw [hone] at hbatch
  rw [hmany] at hsequence
  obtain ⟨o, rfl⟩ := Except.exists_of_isOk hbatch
  obtain ⟨os, rfl⟩ := Except.exists_of_isOk hsequence
  exact WriteOp.batch_eq_sequence (r := employees) (by decide +kernel) namesExactly_employees
    filedExactly_staffDesk (fun _ => writesScalars_titles) hone hmany

/-- Gives the third employee the first one as manager by a link, and then the former one again by the
column of the link. -/
def managers : List Json := [
  .obj [("employee_id", .int 3), ("manager", .obj [("employee_id", .int 1)])],
  .obj [("employee_id", .int 3), ("reports_to", .int 2)]]

/-- The number of the manager of the third employee. -/
def managerOf (d : Desk) : Option Int :=
  (d.store.tables.row? "employees" ⟨[.int 3]⟩).bind fun record =>
    (record.get? "reports_to").bind Json.int64?

/-- The batch loses the later write, because what it knows of the employee has not seen the link. -/
theorem reportsTo_lost :
    ((commitItems managers).on staffDesk).1.isOk = true ∧
      (Serving.on (managers.mapM fun item => commitItems [item]) staffDesk).1.isOk = true ∧
      managerOf ((commitItems managers).on staffDesk).2 = some 1 ∧
      managerOf (Serving.on (managers.mapM fun item => commitItems [item]) staffDesk).2 = some 2 := by
  decide +kernel

end Music

end NestedResources
