import NestedResources.Proofs.Dict
import NestedResources.Store.Tables

/-!
# Rows under their own keys

Tables are in order if every row is filed under the key of its own identity. Rows are then told apart
by their keys, and the members of a relationship are rows of its target.
-/
namespace NestedResources.Tables

variable {t : Tables} {schema : Schema}

/-- Every row of a resource is filed under the key of its identity. -/
def Filed (t : Tables) (schema : Schema) : Prop :=
  ∀ (name key : String) (r : Resource) (record : Record), schema.resource? name = some r →
    t.rowAt? name key = some record → ∃ i, r.identityOf? record = some i ∧ i.key = key

theorem mem_rowsOf {name : String} {record : Record} :
    record ∈ t.rowsOf name ↔ ∃ key, t.rowAt? name key = some record := Dict.mem_values

@[simp] theorem linksOf_putRow (t : Tables) (resource key : String) (record : Record) (name : String) :
    (t.putRow resource key record).linksOf name = t.linksOf name := rfl

@[simp] theorem rowAt?_putRow_self (t : Tables) (resource key : String) (record : Record) :
    (t.putRow resource key record).rowAt? resource key = some record := by
  simp [rowAt?, table, putRow]

theorem rowAt?_putRow_of_key_ne (t : Tables) (resource : String) {key other : String}
    (record : Record) (h : other ≠ key) :
    (t.putRow resource key record).rowAt? resource other = t.rowAt? resource other := by
  simp [rowAt?, table, putRow, Dict.get?_insert_of_ne _ h]

theorem rowAt?_putRow_of_resource_ne (t : Tables) {resource other : String} (key : String)
    (record : Record) (h : other ≠ resource) (k : String) :
    (t.putRow resource key record).rowAt? other k = t.rowAt? other k := by
  simp [rowAt?, table, putRow, Dict.get?_insert_of_ne _ h]

theorem rowAt?_putRow (t : Tables) (resource key : String) (record : Record) (other k : String) :
    (t.putRow resource key record).rowAt? other k =
      if other = resource ∧ k = key then some record else t.rowAt? other k := by
  split
  · rename_i hsame
    rw [hsame.1, hsame.2, rowAt?_putRow_self]
  · rename_i hdiffers
    by_cases hother : other = resource
    · subst hother
      exact rowAt?_putRow_of_key_ne t other record fun hk => hdiffers ⟨rfl, hk⟩
    · exact rowAt?_putRow_of_resource_ne t key record hother k

theorem filed_empty (schema : Schema) : Filed empty schema := fun _ _ _ _ _ hrow => by cases hrow

/-- Rows that are filed under the keys of their identities leave tables in order. -/
theorem Filed.putRow (h : t.Filed schema) {name key : String} {record : Record}
    (hkey : ∀ r, schema.resource? name = some r → ∃ i, r.identityOf? record = some i ∧ i.key = key) :
    (t.putRow name key record).Filed schema := by
  intro other k r row hr hrow
  rw [rowAt?_putRow] at hrow
  split at hrow
  · rename_i hsame
    obtain ⟨rfl, rfl⟩ := hsame
    cases hrow
    exact hkey r hr
  · exact h other k r row hr hrow

/-- A row is found by its identity. -/
theorem Filed.row?_of_mem (h : t.Filed schema) {name : String} {r : Resource} {record : Record}
    (hr : schema.resource? name = some r) (hm : record ∈ t.rowsOf name) :
    ∃ i, r.identityOf? record = some i ∧ t.row? name i = some record := by
  obtain ⟨key, hkey⟩ := mem_rowsOf.1 hm
  obtain ⟨i, hi, rfl⟩ := h name key r record hr hkey
  exact ⟨i, hi, hkey⟩

/-- Members are rows of the target. -/
theorem mem_rowsOf_of_mem_members {owner target : Resource} {rel : Relationship}
    {record member : Record} (htarget : schema.target? rel = some target)
    (h : member ∈ t.members schema owner record rel) : member ∈ t.rowsOf target.name := by
  unfold members at h
  simp only [htarget] at h
  split at h
  · split at h
    · cases h
    · exact (List.mem_filter.1 h).1
  · split at h
    · cases h
    · exact (List.mem_filter.1 h).1
  · split at h
    · cases h
    · obtain ⟨key, -, hkey⟩ := List.mem_filterMap.1 h
      exact mem_rowsOf.2 ⟨key, hkey⟩

end NestedResources.Tables
