import NestedResources.Proofs.Service.Serving
import NestedResources.Proofs.Store.Removals
import NestedResources.Proofs.Write.Open

/-!
# Deleting what a query matches

A deletion by query fixes the rows that are to go before the first of them is deleted. It removes exactly
these and what goes along with them, unless one of them goes along with another: then its own deletion
finds nothing, and the whole request fails as if the entity had never been there
(`Serving.deleteWhere_cases`).
-/
namespace NestedResources

/-- A row with this identity passes a condition. -/
def Tables.Matches (t : Tables) (s : Schema) (r : Resource) (condition : Option Predicate) (i : Identity) :
    Prop := ∃ record, t.Stores r i record ∧ t.passes s r condition record = true

/-! ## What is matched -/

namespace Tables

variable {t : Tables} {s : Schema} {r : Resource} {condition : Option Predicate}

theorem mem_matching_iff (hr : s.resource? r.name = some r) (hfiled : t.Filed s) {i : Identity} :
    i ∈ t.matching s r condition ↔ t.Matches s r condition i := by
  rw [mem_matching]
  constructor
  · rintro ⟨record, hmem, hpasses, hi⟩
    obtain ⟨j, hj, hrow⟩ := hfiled.row?_of_mem hr hmem
    cases hi.symm.trans hj
    exact ⟨record, ⟨hrow, hi⟩, hpasses⟩
  · rintro ⟨record, hstores, hpasses⟩
    exact ⟨record, hstores.mem_rowsOf, hpasses, hstores.identity⟩

/-- Rows that are filed under their own keys have different keys. -/
theorem pairwise_matching (condition : Option Predicate) (hr : s.resource? r.name = some r) (hfiled : t.Filed s) :
    (t.matching s r condition).Pairwise fun i j => i.key ≠ j.key := by
  rw [matching, List.pairwise_filterMap]
  refine List.Pairwise.perm (R := fun a b => ∀ i, r.identityOf? a = some i → ∀ j,
    r.identityOf? b = some j → i.key ≠ j.key) ?_ (Sorting.sort_perm _ _).symm ?_
  · exact (hfiled.keyed hr).pairwise_rowsOf.filter _
  · exact fun hab i hi j hj hkey => hab j hj i hi hkey.symm

end Tables

/-! ## The walk -/

namespace WalkSite

open Walking

variable {site : WalkSite} {r : Resource} {w : Walk}

theorem planDelete_run
    (hpermits : ∀ change, (site.registry.gateWithRef r.name).2.permits change site.ctx = true) (k : Known)
    (w : Walk) : ∃ after, (site.planDelete r k).run.run w = (.ok (), after) ∧
      Moves w after [.delete r.name k.reference] [] [] := by
  unfold planDelete
  have hpermit : ∀ change, (site.permit (site.registry.gateWithRef r.name) change).run.run w =
      (.ok (), { w with consulted :=
        w.consulted ++ [⟨(site.registry.gateWithRef r.name).1, change, true⟩] }) := by
    intro change
    unfold permit
    rw [hpermits]
    rfl
  rw [bind_of_ok (hpermit _)]
  exact ⟨_, rfl, rfl, rfl, rfl, (List.append_nil _).symm⟩

/-- What is known of entities is deleted in its order. -/
theorem planDeletes_run
    (hpermits : ∀ change, (site.registry.gateWithRef r.name).2.permits change site.ctx = true)
    (items : List Known) (w : Walk) :
    ∃ after, (items.forM (site.planDelete r)).run.run w = (.ok (), after) ∧
      Moves w after (items.map fun k => .delete r.name k.reference) [] [] := by
  induction items generalizing w with
  | nil => exact ⟨w, rfl, .refl w⟩
  | cons k items ih =>
    obtain ⟨between, hfirst, hmoves⟩ := planDelete_run hpermits k w
    obtain ⟨after, hrest, hothers⟩ := ih between
    exact ⟨after, (bind_of_ok hfirst).trans hrest, hmoves.trans hothers⟩

/-- A deletion by query plans the deletion of what it matches. -/
theorem deleteWhere_run (site : WalkSite) (predicate : Option Predicate) {filter : Option Predicate}
    (hr : site.registry.schema.resource? r.name = some r)
    (hpermits : ∀ change, (site.registry.gateWithRef r.name).2.permits change site.ctx = true)
    (hfilter : site.registry.required site.ctx r = .ok filter) :
    ∃ after, (site.deleteWhere r.name predicate).run.run {} =
        (.ok ((site.tables.matching site.registry.schema r (Predicate.conjoin predicate filter)).map
          EntityRef.existing), after) ∧
      after.plan.commands = Progress.deletions r.name
        (site.tables.matching site.registry.schema r (Predicate.conjoin predicate filter)) ∧
      after.issues = [] := by
  have hfetch := site.tables.fetch_selected hr (Predicate.conjoin predicate filter)
  have hknown : ∀ records : List Record, (records.map (Row.mk · [])).filterMap (fun row =>
      (r.identityOf? row.record).map fun i => Known.mk (.existing i) row.record false) =
        records.filterMap (storedAs? r) := fun records => List.filterMap_map ..
  unfold deleteWhere
  rw [bind_of_ok (liftM_ok (Schema.require_eq_ok.2 hr) _), bind_of_ok (liftM_ok hfilter _)]
  dsimp only
  rw [bind_of_ok (liftM_ok hfetch _), hknown]
  obtain ⟨after, hrun, hmoves⟩ := planDeletes_run hpermits ((site.tables.select site.registry.schema r
    (site.tables.rowsOf r.name) (Predicate.conjoin predicate filter) []).filterMap (storedAs? r)) {}
  rw [bind_of_ok hrun, references_storedAs?]
  refine ⟨after, rfl, ?_, hmoves.issues⟩
  have hcommands : ∀ items : List Known, items.map (fun k => Command.delete r.name k.reference) =
      (items.map Known.reference).map (Command.delete r.name) := fun items => by rw [List.map_map]; rfl
  rw [hmoves.commands, hcommands, references_storedAs?, List.map_map]
  rfl

end WalkSite

/-! ## The request -/

namespace Serving

/-- A plan of deletions either is applied as a whole, or fails where an entity went along with one
before it, or leaves a required column empty. -/
theorem commit_deletions {g : Registry} {ctx : Context} (walking : WalkSite → Walking (List EntityRef))
    {d : Desk} {r : Resource} {items : List Identity} {w : Walk}
    (hr : g.schema.resource? r.name = some r)
    (hstored : ∀ i ∈ items, ∃ record, d.store.tables.row? r.name i = some record)
    (hrun : (walking ⟨g, ctx, d.store.tables⟩).run.run {} = (.ok (items.map EntityRef.existing), w))
    (hcommands : w.plan.commands = Progress.deletions r.name items) (hissues : w.issues = []) :
    (∃ o after, on (commit g ctx walking) d = (.ok o, after) ∧ o.identities = items ∧
        d.store.tables.Without g.schema r.name items after.store.tables) ∨
      ∃ e after, on (commit g ctx walking) d = (.error e, after) ∧ after.store = d.store ∧
        ((∃ name key field, e = .conflict (.columnEmpty name key field)) ∨
          ∃ before i rest, items = before ++ i :: rest ∧ e = .notFound r.name i.key ∧
            ∃ j ∈ before, d.store.tables.Cascades g.schema r.name j.key r.name i.key) := by
  rw [commit_on hrun]
  dsimp only [bind, Except.bind]
  unfold settle Store.apply
  rw [if_pos (List.isEmpty_iff.2 hissues), hcommands]
  rcases Progress.deletes_cases (p := { store := d.store }) hr (.refl d.store.tables g.schema r.name)
      hstored with ⟨q, hq, hwithout⟩ | ⟨before, i, rest, hitems, ⟨j, hj, hgoes⟩, herror⟩
  · rw [hq]
    dsimp only [bind, Except.bind]
    cases hempty : q.emptyColumn? g.schema with
    | none =>
      refine .inl ⟨_, _, rfl, ?_, hwithout⟩
      exact (List.filterMap_map ..).trans (List.filterMap_some ..)
    | some fault =>
      obtain ⟨name, key, field, rfl⟩ := Progress.emptyColumn?_eq_some hempty
      exact .inr ⟨_, _, rfl, rfl, .inl ⟨name, key, field, rfl⟩⟩
  · rw [herror]
    exact .inr ⟨_, _, rfl, rfl, .inr ⟨before, i, rest, hitems, rfl, j, hj, hgoes⟩⟩

/-- A deletion by query removes exactly what it matches with what goes along, and reports it; or it
changes nothing, since a required column would be left empty or something that it matches goes along with
something else that it matches. -/
theorem deleteWhere_cases {g : Registry} (ctx : Context) {d : Desk} {r : Resource}
    (predicate : Option Predicate) {filter : Option Predicate} (hr : g.schema.resource? r.name = some r)
    (hpermits : ∀ change, (g.gateWithRef r.name).2.permits change ctx = true)
    (hfilter : g.required ctx r = .ok filter) (hfiled : d.store.tables.Filed g.schema) :
    (∃ o after, on (commit g ctx (·.deleteWhere r.name predicate)) d = (.ok o, after) ∧
        o.identities.Nodup ∧
        (∀ i, i ∈ o.identities ↔
          d.store.tables.Matches g.schema r (Predicate.conjoin predicate filter) i) ∧
        d.store.tables.Without g.schema r.name o.identities after.store.tables) ∨
      ∃ e after, on (commit g ctx (·.deleteWhere r.name predicate)) d = (.error e, after) ∧
        after.store = d.store ∧
        ((∃ name key field, e = .conflict (.columnEmpty name key field)) ∨
          ∃ i j, e = .notFound r.name i.key ∧
            d.store.tables.Matches g.schema r (Predicate.conjoin predicate filter) i ∧
            d.store.tables.Matches g.schema r (Predicate.conjoin predicate filter) j ∧
            j.key ≠ i.key ∧ d.store.tables.Cascades g.schema r.name j.key r.name i.key) := by
  obtain ⟨w, hrun, hcommands, hissues⟩ := WalkSite.deleteWhere_run ⟨g, ctx, d.store.tables⟩ predicate hr
    hpermits hfilter
  have hmatches : ∀ i, i ∈ d.store.tables.matching g.schema r (Predicate.conjoin predicate filter) ↔
      d.store.tables.Matches g.schema r (Predicate.conjoin predicate filter) i :=
    fun i => Tables.mem_matching_iff hr hfiled
  have hkeys := Tables.pairwise_matching (Predicate.conjoin predicate filter) hr hfiled
  rcases commit_deletions (·.deleteWhere r.name predicate) hr (fun i hi => by
      obtain ⟨record, hstores, -⟩ := (hmatches i).1 hi
      exact ⟨record, hstores.row⟩) hrun hcommands hissues with
    ⟨o, after, hon, hidentities, hwithout⟩ |
      ⟨e, after, hon, hstore, hempty | ⟨before, i, rest, hitems, rfl, j, hj, hgoes⟩⟩
  · refine .inl ⟨o, after, hon, ?_, fun i => ?_, ?_⟩
    · rw [hidentities]
      exact hkeys.imp fun hne hsame => hne (congrArg Identity.key hsame)
    · rw [hidentities]
      exact hmatches i
    · rw [hidentities]
      exact hwithout
  · exact .inr ⟨e, after, hon, hstore, .inl hempty⟩
  · have hi : i ∈ before ++ i :: rest := List.mem_append_right _ List.mem_cons_self
    have hjmem : j ∈ before ++ i :: rest := List.mem_append_left _ hj
    rw [hitems] at hkeys
    refine .inr ⟨_, after, hon, hstore, .inr ⟨i, j, rfl, (hmatches i).1 (hitems ▸ hi),
      (hmatches j).1 (hitems ▸ hjmem), ?_, hgoes⟩⟩
    exact (List.pairwise_append.1 hkeys).2.2 j hj i List.mem_cons_self

end Serving

namespace Music

/-- Employees whose reports go with them, open to everybody. -/
def openCrew : Registry := { schema := crewSchema, gates := [], relationshipGates := [] }

def crewDesk : Desk := ⟨⟨staffTables employeeRows, 0⟩, []⟩

def deleteCrew (predicate : Option Predicate) : Serving Outcome :=
  Serving.commit openCrew ⟨.empty⟩ (·.deleteWhere "employees" predicate)

/-- Whoever reports to the second employee. -/
def reportsToSecond : Predicate := .compare "reports_to" .integer .eq (.int 2)

theorem isOpen_openCrew : openCrew.IsOpen :=
  ⟨fun _ h => (by cases h), fun _ h => (by cases h)⟩

/-- The three who report to the second employee are deleted together. -/
theorem deleteCrew_reportsToSecond : ∃ o after,
    (deleteCrew (some reportsToSecond)).on crewDesk = (.ok o, after) ∧
      (∀ i, i ∈ o.identities ↔
        crewDesk.store.tables.Matches crewSchema crew (some reportsToSecond) i) ∧
      crewDesk.store.tables.Without crewSchema "employees" o.identities after.store.tables ∧
      o.keys = ["3", "4", "5"] := by
  have hdecided : ((deleteCrew (some reportsToSecond)).on crewDesk).1.map Outcome.keys =
      .ok ["3", "4", "5"] := by decide +kernel
  rcases Serving.deleteWhere_cases (g := openCrew) ⟨.empty⟩ (d := crewDesk) (r := crew)
      (some reportsToSecond) (by decide +kernel)
      (fun change => (isOpen_openCrew.gateWithRef "employees").permits change ⟨.empty⟩)
      (isOpen_openCrew.required ⟨.empty⟩ crew) filed_crew with
    ⟨o, after, hon, -, hmatches, hwithout⟩ | ⟨e, after, hon, -⟩
  · have hanswer : (deleteCrew (some reportsToSecond)).on crewDesk = (.ok o, after) := hon
    rw [hanswer] at hdecided
    exact ⟨o, after, hon, hmatches, hwithout, Except.ok.inj hdecided⟩
  · have hanswer : (deleteCrew (some reportsToSecond)).on crewDesk = (.error e, after) := hon
    rw [hanswer] at hdecided
    cases hdecided

/-- All employees are to be deleted, but the second one goes along with the first one and is missed. -/
theorem deleteCrew_all_fails : openCrew.IsOpen ∧ crewDesk.store.tables.Filed openCrew.schema ∧
    ((deleteCrew none).on crewDesk).1.map Outcome.keys = .error (.notFound "employees" "2") :=
  ⟨isOpen_openCrew, filed_crew, by decide +kernel⟩

end Music

end NestedResources
