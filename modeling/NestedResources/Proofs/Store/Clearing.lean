import NestedResources.Proofs.Store.Referential
import NestedResources.Store.Commit

/-!
# What the steps of a deletion change

Clearing columns sets them to null in one row, dropping links takes them from one table, and dropping
a row takes one row. Everything else stays as it is.
-/
namespace NestedResources

namespace Record

/-- A row with columns set to null. -/
def cleared (record : Record) (columns : List String) : Record :=
  (record.assign (columns.zip (columns.map fun _ => .null))).1

theorem eq_null_of_same {v : Json} (h : v.same .null = true) : v = .null := by
  cases v with
  | null => rfl
  | _ => cases h

/-- One round of writing values into columns. -/
def put (state : Record × Bool) (assignment : String × Json) : Record × Bool :=
  match state.1.get? assignment.1 with
  | some v => if v.same assignment.2 then state else (state.1.insert assignment.1 assignment.2, true)
  | none => (state.1.insert assignment.1 assignment.2, true)

theorem assign_eq_foldl (record : Record) (assignments : List (String × Json)) :
    record.assign assignments = assignments.foldl put (record, false) := rfl

theorem put_null {record : Record} {column : String} (h : record.get? column = some .null)
    (changed : Bool) : put (record, changed) (column, .null) = (record, changed) := by
  rw [put, h]
  rfl

theorem put_of_ne {record : Record} {column : String} (h : record.get? column ≠ some .null)
    (changed : Bool) : put (record, changed) (column, .null) = (record.insert column .null, true) := by
  unfold put
  cases hv : record.get? column with
  | none => rfl
  | some v =>
    have hsame : v.same .null = false := by
      rw [Bool.eq_false_iff]
      intro hsame
      rw [hv, eq_null_of_same hsame] at h
      exact h rfl
    simp only [hsame, Bool.false_eq_true, if_false]

/-- A round leaves the row as it is, or writes the value and says so. -/
theorem put_cases (record : Record) (changed : Bool) (assignment : String × Json) :
    (∃ v, record.get? assignment.1 = some v ∧ v.same assignment.2 = true ∧
        put (record, changed) assignment = (record, changed)) ∨
      put (record, changed) assignment = (record.insert assignment.1 assignment.2, true) := by
  unfold put
  cases hv : record.get? assignment.1 with
  | none => exact .inr rfl
  | some v =>
    dsimp only
    split
    · rename_i hsame
      exact .inl ⟨v, rfl, hsame, rfl⟩
    · exact .inr rfl

/-- If no change is told, there is none. -/
theorem eq_of_foldl_put {record : Record} {assignments : List (String × Json)} {changed : Bool}
    (h : (assignments.foldl put (record, changed)).2 = false) :
    (assignments.foldl put (record, changed)).1 = record ∧ changed = false := by
  induction assignments generalizing record changed with
  | nil => exact ⟨rfl, h⟩
  | cons a rest ih =>
    rw [List.foldl_cons] at h ⊢
    rcases put_cases record changed a with ⟨_, -, -, hput⟩ | hput
    · rw [hput] at h ⊢
      exact ih h
    · rw [hput] at h
      cases (ih h).2

theorem assign_of_unchanged {record : Record} {assignments : List (String × Json)}
    (h : (record.assign assignments).2 = false) : (record.assign assignments).1 = record :=
  (eq_of_foldl_put h).1

/-- Columns that are not put stay. -/
theorem get?_foldl_put_of_notMem (record : Record) {assignments : List (String × Json)} {c : String}
    (hc : c ∉ assignments.map Prod.fst) (changed : Bool) :
    (assignments.foldl put (record, changed)).1.get? c = record.get? c := by
  induction assignments generalizing record changed with
  | nil => rfl
  | cons a rest ih =>
    rw [List.map_cons, List.mem_cons, not_or] at hc
    rw [List.foldl_cons]
    rcases put_cases record changed a with ⟨_, -, -, hput⟩ | hput
    · rw [hput]
      exact ih record hc.2 changed
    · rw [hput, ih _ hc.2, Dict.get?_insert_of_ne record hc.1]

theorem get?_assign_of_notMem (record : Record) {columns : List String} {c : String} (hc : c ∉ columns)
    (values : List Json) : (record.assign (columns.zip values)).1.get? c = record.get? c := by
  refine record.get?_foldl_put_of_notMem (fun hmem => hc ?_) false
  obtain ⟨a, ha, rfl⟩ := List.mem_map.1 hmem
  exact (List.of_mem_zip ha).1

/-- Putting null into columns one after the other. -/
theorem get?_foldl_put_null (record : Record) (columns : List String) (changed : Bool) (c : String) :
    ((columns.zip (columns.map fun _ => Json.null)).foldl put (record, changed)).1.get? c =
      if c ∈ columns then some .null else record.get? c := by
  induction columns generalizing record changed with
  | nil => simp
  | cons column columns ih =>
    rw [List.map_cons, List.zip_cons_cons, List.foldl_cons]
    by_cases hnull : record.get? column = some .null
    · rw [put_null hnull, ih]
      by_cases hc : c = column
      · subst hc
        simp [hnull]
      · simp [List.mem_cons, hc]
    · rw [put_of_ne hnull, ih]
      by_cases hc : c = column
      · subst hc
        simp
      · simp [List.mem_cons, hc, Dict.get?_insert_of_ne _ hc]

theorem get?_cleared (record : Record) (columns : List String) (c : String) :
    (record.cleared columns).get? c = if c ∈ columns then some .null else record.get? c :=
  get?_foldl_put_null record columns false c

theorem fades_cleared (record : Record) (columns : List String) :
    record.Fades (record.cleared columns) := by
  intro c
  rw [get?_cleared]
  split
  · exact .inr rfl
  · exact .inl rfl

end Record

namespace Tables

variable (t : Tables)

theorem rowAt?_dropRow (resource key name other : String) :
    (t.dropRow resource key).rowAt? name other =
      if name = resource ∧ other = key then none else t.rowAt? name other := by
  unfold dropRow rowAt? table
  cases hrows : t.rows.get? resource with
  | none =>
    dsimp only
    by_cases h : name = resource ∧ other = key
    · rw [if_pos h, h.1, hrows]
      rfl
    · rw [if_neg h]
  | some rows =>
    by_cases hname : name = resource
    · subst hname
      by_cases hother : other = key
      · subst hother
        simp
      · simp [hrows, hother, Dict.get?_erase_of_ne]
    · simp [hname, Dict.get?_insert_of_ne]

@[simp] theorem linksOf_dropRow (resource key name : String) :
    (t.dropRow resource key).linksOf name = t.linksOf name := by
  unfold dropRow
  split <;> rfl

@[simp] theorem rowAt?_filterLinks (name : String) (keep : Link → Bool) (resource key : String) :
    (t.filterLinks name keep).rowAt? resource key = t.rowAt? resource key := by
  unfold filterLinks
  split <;> rfl

theorem mem_linksOf_filterLinks (name : String) (keep : Link → Bool) (table : String) (link : Link) :
    link ∈ ((t.filterLinks name keep).linksOf table).links ↔
      link ∈ (t.linksOf table).links ∧ (table = name → keep link = true) := by
  unfold filterLinks linksOf
  cases hlinks : t.links.get? name with
  | none =>
    refine ⟨fun h => ⟨h, ?_⟩, fun h => h.1⟩
    rintro rfl
    rw [hlinks] at h
    cases h
  | some links =>
    by_cases hname : table = name
    · subst hname
      simp [hlinks, LinkTable.filter]
    · simp [hname, Dict.get?_insert_of_ne]

end Tables

namespace Progress

variable (p : Progress)

@[simp] theorem linksOf_assign (name : String) (i : Identity) (columns : List String)
    (values : List Json) (table : String) :
    (p.assign name i columns values).tables.linksOf table = p.tables.linksOf table := by
  unfold assign
  split
  · rfl
  · dsimp only
    split <;> rfl

/-- Writing columns changes one row at most. -/
theorem rowAt?_assign (name : String) (i : Identity) (columns : List String) (values : List Json)
    (resource key : String) :
    (p.assign name i columns values).tables.rowAt? resource key =
      if resource = name ∧ key = i.key then
        (p.tables.rowAt? resource key).map fun record => (record.assign (columns.zip values)).1
      else p.tables.rowAt? resource key := by
  unfold assign Tables.row?
  cases hrow : p.tables.rowAt? name i.key with
  | none =>
    dsimp only
    by_cases h : resource = name ∧ key = i.key
    · rw [if_pos h, h.1, h.2, hrow]
      rfl
    · rw [if_neg h]
  | some record =>
    dsimp only
    split
    · change (p.tables.putRow name i.key _).rowAt? resource key = _
      rw [Tables.rowAt?_putRow]
      split
      · rename_i h
        rw [h.1, h.2, hrow, Option.map_some]
      · rfl
    · rename_i hunchanged
      have hsame := Record.assign_of_unchanged (by simpa using hunchanged)
      split
      · rename_i h
        rw [h.1, h.2, hrow, Option.map_some, hsame]
      · rfl

@[simp] theorem linksOf_clear (name : String) (i : Identity) (columns : List String) (table : String) :
    (p.clear name i columns).tables.linksOf table = p.tables.linksOf table :=
  p.linksOf_assign ..

theorem rowAt?_clear (name : String) (i : Identity) (columns : List String) (resource key : String) :
    (p.clear name i columns).tables.rowAt? resource key =
      if resource = name ∧ key = i.key then (p.tables.rowAt? resource key).map (·.cleared columns)
      else p.tables.rowAt? resource key :=
  p.rowAt?_assign ..

@[simp] theorem rowAt?_dropLinks (name column key : String) (resource other : String) :
    (p.dropLinks name column key).tables.rowAt? resource other = p.tables.rowAt? resource other :=
  Tables.rowAt?_filterLinks ..

theorem mem_linksOf_dropLinks (name column key : String) (table : String) (link : Link) :
    link ∈ ((p.dropLinks name column key).tables.linksOf table).links ↔
      link ∈ (p.tables.linksOf table).links ∧ (table = name → link.get? column ≠ some key) := by
  refine (Tables.mem_linksOf_filterLinks ..).trans ?_
  simp

end Progress

end NestedResources
