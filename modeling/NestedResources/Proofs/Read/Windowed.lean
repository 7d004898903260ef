import NestedResources.Proofs.Read.Reading

/-!
# Windows of a query

The window of a query is a window of the rows that it finds: what a row carries does not depend on the
rows that are found beside it, whatever the tables are (`Registry.exists_rows_windows`).
-/
namespace NestedResources

/-- The same reading with another window at the root. -/
def Reading.withWindow (reading : Reading) (window : Window) : Reading :=
  { reading with fetch := { reading.fetch with window } }

namespace Registry

variable {g : Registry} {ctx : Context} {es : Embeds} {root r : Resource} {q : Query}
  {scope : Option Predicate} {reading : Reading} (t : Tables)

/-- A query compiles with any window. -/
theorem reading_withWindow {name : String} (h : g.reading ctx name q scope = .ok reading)
    (window : Window) :
    g.reading ctx name { q with window } scope = .ok (reading.withWindow window) := by
  obtain ⟨r, hr, h⟩ := Except.bind_eq_ok.1 h
  obtain ⟨es, hes, h⟩ := Except.bind_eq_ok.1 h
  obtain ⟨p, hp, h⟩ := Except.bind_eq_ok.1 h
  obtain ⟨sorts, hsorts, h⟩ := Except.bind_eq_ok.1 h
  obtain ⟨includes, hincludes, h⟩ := Except.bind_eq_ok.1 h
  obtain ⟨fetches, hfetches, h⟩ := Except.bind_eq_ok.1 h
  cases h
  refine Except.bind_eq_ok.2 ⟨r, hr, ?_⟩
  refine Except.bind_eq_ok.2 ⟨es, hes, ?_⟩
  refine Except.bind_eq_ok.2 ⟨p, hp, ?_⟩
  refine Except.bind_eq_ok.2 ⟨sorts, hsorts, ?_⟩
  refine Except.bind_eq_ok.2 ⟨includes, hincludes, ?_⟩
  exact Except.bind_eq_ok.2 ⟨fetches, hfetches, rfl⟩

/-- The members that the fetch of an embed hands to a row: those that are found for its identity. -/
def membersAt (g : Registry) (ctx : Context) (t : Tables) (es : Embeds) (root : Resource) (e : Embed)
    (record : Record) : List Row :=
  ((g.schema.at? root e.path.dropLast).bind fun parent =>
    (g.schema.step? parent (e.path.getLastD "")).bind fun (rel, target) =>
      (parent.identityOf? record).map fun i =>
        g.found ctx t (fun _ _ => true) (requiredDepth + 1) es e parent target rel i.key).getD []

theorem membersAt_eq {e : Embed} {s : ScopedFetch} {parent target : Resource} {rel : Relationship}
    (h : g.FetchOf ctx es root e s parent target rel) (record : Record) :
    g.membersAt ctx t es root e record = ((parent.identityOf? record).map fun i =>
      g.found ctx t (fun _ _ => true) (requiredDepth + 1) es e parent target rel i.key).getD [] := by
  rw [membersAt, h.at_eq, Option.bind_some, h.step_eq]
  rfl

/-- A fetch changes every row by itself. -/
theorem run_eq_map {e : Embed} {s : ScopedFetch} {parent target : Resource}
    {rel : Relationship} (h : g.FetchOf ctx es root e s parent target rel)
    (hparent : g.schema.resource? parent.name = some parent) (rows : List Row) :
    s.run t g.schema rows
      = .ok (rows.map (Row.attachAt e.path (g.membersAt ctx t es root e))) := by
  have hlt : requiredDepth < requiredDepth + 1 := by decide
  rw [ScopedFetch.run_eq_map (Schema.require_eq_ok.2 (h.resource_eq ▸ hparent))
    (fetchRelated_eq t (fun _ _ => true) hlt h hparent _) (fun hnone => by rw [hnone]; rfl),
    h.path_eq, h.relationship_eq]
  refine congrArg Except.ok (List.map_congr_left fun row hrow => Row.modifyAt_congr fun below hbelow => ?_)
  have hmem := Row.mem_rowsAt.2 ⟨row, hrow, hbelow⟩
  rw [membersAt_eq t h]
  cases hi : parent.identityOf? below.record with
  | none => simp only [ScopedFetch.membersOf, hi, Option.map_none, Option.getD_none]
  | some i =>
    rw [ScopedFetch.membersOf_eq hi (ScopedFetch.exists_mem_parentsOf hmem hi)]
    rfl

/-- All fetches together change every row by itself. -/
theorem foldlM_run_eq_map (hroot : g.schema.resource? root.name = some root) {todo : List Embed}
    {fetches : List ScopedFetch} (h : todo.mapM (g.scopedFetch ctx root es) = .ok fetches)
    (rows : List Row) :
    fetches.foldlM (fun rows s => s.run t g.schema rows) rows = .ok (rows.map fun row =>
      todo.foldl (fun row e => row.attachAt e.path (g.membersAt ctx t es root e)) row) := by
  replace h := Except.mapM_eq_ok.1 h
  induction h generalizing rows with
  | nil => exact congrArg Except.ok (List.map_id rows).symm
  | cons hs _ ih =>
    obtain ⟨parent, target, rel, hof⟩ := fetchOf_of_scopedFetch hs
    have hparent := Schema.resource?_of_at? hroot hof.at_eq
    rw [List.foldlM_cons, run_eq_map t hof hparent]
    exact (ih _).trans (congrArg Except.ok List.map_map)

/-- A query finds its rows in one order, and with any window it finds a window of them. Each row of the
table that passes the filter is among them once. -/
theorem exists_rows_windows (hr : g.schema.resource? r.name = some r)
    (h : g.reading ctx r.name q scope = .ok reading) :
    ∃ (records : List Record) (build : Record → Row),
      records.Perm ((t.rowsOf r.name).filter (t.passes g.schema r reading.fetch.predicate)) ∧
      (∀ record, (build record).record = record) ∧
      ∀ window, (reading.withWindow window).rows t g.schema = .ok ((window.apply records).map build) := by
  have hlt : requiredDepth < requiredDepth + 1 := by decide
  obtain ⟨_, -, hrest⟩ := Except.bind_eq_ok.1 h
  obtain ⟨es, hes, -⟩ := Except.bind_eq_ok.1 hrest
  have hof (window : Window) : g.ReadingOf ctx r { q with window } es scope (reading.withWindow window) :=
    readingOf_of_reading hr hes (reading_withWindow h window)
  let change (row : Row) : Row :=
    es.topDown.foldl (fun row e => row.attachAt e.path (g.membersAt ctx t es r e)) row
  let sees := g.sees ctx t (fun _ _ => true) (requiredDepth + 1)
  refine ⟨Sorting.sort (Record.compare r (r.columns q.sorts)) (q.matching t g.schema sees r scope),
    change ∘ (along es).nested t g.schema sees r [], ?_, fun record => ?_, fun window => ?_⟩
  · have hmatching := passes_predicate t (fun _ _ => true) hlt hr (hof .unbounded)
    exact hmatching.symm ▸ Sorting.sort_perm _ _
  · exact (Row.record_foldl_attachAt ..).trans (by simp)
  · refine Except.bind_eq_ok.2 ⟨_, fetch_eq t (fun _ _ => true) hlt hr (hof window), ?_⟩
    rw [← List.map_map]
    exact foldlM_run_eq_map t hr (hof window).fetches_eq _

end Registry

end NestedResources
