import NestedResources.Proofs.Schema.Lookup
import NestedResources.Proofs.Store.Order
import NestedResources.Proofs.Store.Predicate

/-!
# What a fetch finds

A fetch without includes gives the selected rows as they are, and a count counts them.
-/
namespace NestedResources

namespace Tables

variable (t : Tables) {schema : Schema} {name : String} {r : Resource}

@[simp] theorem mem_select {candidates : List Record} {predicate : Option Predicate}
    {sorts : List ColumnSort} {record : Record} :
    record ∈ t.select schema r candidates predicate sorts ↔
      record ∈ candidates ∧ t.passes schema r predicate record = true := by
  rw [select, Sorting.mem_sort, List.mem_filter]

theorem fetch_plain (hr : schema.resource? name = some r) (predicate : Option Predicate)
    (sorts : List ColumnSort) (window : Window) :
    t.fetch schema { resource := name, predicate, sorts, window } =
      .ok ((window.apply (t.select schema r (t.rowsOf name) predicate sorts)).map (Row.mk · [])) := by
  obtain rfl := Schema.name_of_resource? hr
  unfold fetch
  rw [Schema.require_eq_ok.2 hr]
  exact Except.mapM_of_forall fun record _ => by rw [buildRow]

/-- A fetch without a window gives all that is selected. -/
theorem fetch_selected (hr : schema.resource? name = some r) (predicate : Option Predicate) :
    t.fetch schema { resource := name, predicate } =
      .ok ((t.select schema r (t.rowsOf name) predicate []).map (Row.mk · [])) := by
  have hwindow : ∀ records : List Record, Window.unbounded.apply records = records := fun records =>
    List.drop_zero
  rw [t.fetch_plain hr predicate [] .unbounded, hwindow]

/-- A fetch without a window gives all rows that pass, each as it is. -/
theorem fetch_all (hr : schema.resource? name = some r) (predicate : Option Predicate) :
    ∃ rows, t.fetch schema { resource := name, predicate } = .ok rows ∧
      ∀ row, row ∈ rows ↔ ∃ record, record ∈ t.rowsOf name ∧
        t.passes schema r predicate record = true ∧ row = .mk record [] := by
  refine ⟨_, t.fetch_selected hr predicate, fun row => ?_⟩
  rw [List.mem_map]
  constructor
  · rintro ⟨record, hrecord, rfl⟩
    obtain ⟨hmem, hpasses⟩ := t.mem_select.1 hrecord
    exact ⟨record, hmem, hpasses, rfl⟩
  · rintro ⟨record, hmem, hpasses, rfl⟩
    exact ⟨record, t.mem_select.2 ⟨hmem, hpasses⟩, rfl⟩

/-- A window of the first row is empty iff there is no row. -/
theorem fetch_first (hr : schema.resource? name = some r) (predicate : Option Predicate) :
    ∃ rows, t.fetch schema { resource := name, predicate, window := ⟨0, some 1⟩ } = .ok rows ∧
      (∀ row ∈ rows, row.record ∈ t.rowsOf name ∧ t.passes schema r predicate row.record = true) ∧
      (rows = [] → ∀ record ∈ t.rowsOf name, t.passes schema r predicate record = false) := by
  refine ⟨_, t.fetch_plain hr predicate [] ⟨0, some 1⟩, fun row hrow => ?_, fun hnone record hrecord => ?_⟩
  · obtain ⟨record, hrecord, rfl⟩ := List.mem_map.1 hrow
    exact (t.mem_select).1 (List.mem_of_mem_drop (List.mem_of_mem_take hrecord))
  · have hempty : t.select schema r (t.rowsOf name) predicate [] = [] := by
      cases hselect : t.select schema r (t.rowsOf name) predicate [] with
      | nil => rfl
      | cons first rest =>
        rw [hselect] at hnone
        cases hnone
    cases hpasses : t.passes schema r predicate record with
    | false => rfl
    | true =>
      have hmem : record ∈ t.select schema r (t.rowsOf name) predicate [] :=
        t.mem_select.2 ⟨hrecord, hpasses⟩
      rw [hempty] at hmem
      cases hmem

/-- The identities of the rows that pass a condition, in the order of a fetch. -/
def matching (t : Tables) (schema : Schema) (r : Resource) (condition : Option Predicate) : List Identity :=
  (t.select schema r (t.rowsOf r.name) condition []).filterMap r.identityOf?

theorem mem_matching {condition : Option Predicate} {i : Identity} :
    i ∈ t.matching schema r condition ↔ ∃ record ∈ t.rowsOf r.name,
      t.passes schema r condition record = true ∧ r.identityOf? record = some i := by
  rw [matching, List.mem_filterMap]
  constructor
  · rintro ⟨record, hrecord, hi⟩
    obtain ⟨hmem, hpasses⟩ := t.mem_select.1 hrecord
    exact ⟨record, hmem, hpasses, hi⟩
  · rintro ⟨record, hmem, hpasses, hi⟩
    exact ⟨record, t.mem_select.2 ⟨hmem, hpasses⟩, hi⟩

theorem count_eq (hr : schema.resource? name = some r) (predicate : Option Predicate) :
    t.count schema name predicate = .ok ((t.rowsOf name).countP (t.passes schema r predicate)) := by
  unfold count
  rw [Schema.require_eq_ok.2 hr]
  rfl

end Tables

end NestedResources
