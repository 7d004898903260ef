import NestedResources.Proofs.Read.Nested
import NestedResources.Read.Reading

/-!
# Rows along a path

Which rows are found at the end of a relationship path, what changing them leaves alone, and how the
members that were fetched for the identities of rows are handed to them.
-/
namespace NestedResources

namespace Related

/-- The rows of a relationship. -/
def rows : Related → List Row
  | absent => []
  | one row => [row]
  | many rows => rows

/-- Changes every row of a relationship. -/
def mapRows (f : Row → Row) : Related → Related
  | absent => absent
  | one row => one (f row)
  | many rows => many (rows.map f)

/-- Changes every row of a relationship, if there may be any. -/
def mapRows? (f : Row → Row) : Related → Option Related
  | absent => none
  | one row => some (one (f row))
  | many rows => some (many (rows.map f))

end Related

namespace Relationship

theorem mem_of_mem_rows_arrange {rel : Relationship} {rows : List Row} {row : Row}
    (h : row ∈ (rel.arrange rows).rows) : row ∈ rows := by
  unfold arrange at h
  split at h
  · exact h
  · cases rows with
    | nil => cases h
    | cons first rest =>
      rw [List.mem_singleton.1 h]
      exact List.mem_cons_self

theorem mapRows_arrange (rel : Relationship) (f : Row → Row) (rows : List Row) :
    (rel.arrange rows).mapRows f = rel.arrange (rows.map f) := by
  unfold arrange
  split
  · rfl
  · cases rows <;> rfl

end Relationship

namespace Row

@[simp] theorem record_attach (row : Row) (name : String) (related : Related) :
    (row.attach name related).record = row.record := rfl

@[simp] theorem related_attach (row : Row) (name : String) (related : Related) :
    (row.attach name related).related = Entries.insert name related row.related := rfl

theorem rowsAt_cons (name : String) (rest : List String) (row : Row) :
    rowsAt (name :: rest) [row]
      = ((Entries.get? name row.related).map fun related => rowsAt rest related.rows).getD [] := by
  have hnil : rowsAt rest [] = [] := by cases rest <;> rfl
  cases h : Entries.get? name row.related with
  | none => simp [rowsAt, h]
  | some related => cases related <;> simp [rowsAt, h, Related.rows, hnil]

theorem mem_rowsAt {path : List String} {rows : List Row} {row : Row} :
    row ∈ rowsAt path rows ↔ ∃ start ∈ rows, row ∈ rowsAt path [start] := by
  cases path with
  | nil => simp [rowsAt]
  | cons name rest => simp [rowsAt, List.mem_flatMap]

@[simp] theorem record_modifyAt_cons (f : Row → Row) (name : String) (rest : List String) (row : Row) :
    (modifyAt f (name :: rest) row).record = row.record := by
  unfold modifyAt
  split <;> rfl

theorem ordered_modifyAt_cons {row : Row} (h : Entries.Ordered row.related) (f : Row → Row)
    (name : String) (rest : List String) :
    Entries.Ordered (modifyAt f (name :: rest) row).related := by
  unfold modifyAt
  split
  · exact h.insert ..
  · exact h.insert ..
  · exact h

/-- Changing rows along a path changes them in the first relationship and leaves the others alone. -/
theorem get?_modifyAt_cons (f : Row → Row) (name : String) (rest : List String) (row : Row)
    (other : String) :
    Entries.get? other (modifyAt f (name :: rest) row).related =
      if other = name then (Entries.get? name row.related).map (Related.mapRows (modifyAt f rest))
      else Entries.get? other row.related := by
  by_cases heq : other = name
  · subst heq
    rw [if_pos rfl, modifyAt]
    cases h : Entries.get? other row.related with
    | none => exact h
    | some related =>
      cases related with
      | absent => exact h
      | one member => exact Entries.get?_insert_self ..
      | many members => exact Entries.get?_insert_self ..
  · rw [if_neg heq, modifyAt]
    cases h : Entries.get? name row.related with
    | none => rfl
    | some related =>
      cases related with
      | absent => rfl
      | one member => exact Entries.get?_insert_of_ne heq ..
      | many members => exact Entries.get?_insert_of_ne heq ..

/-- Only what becomes of the rows at the end of the path matters. -/
theorem modifyAt_congr {f g : Row → Row} {path : List String} {row : Row}
    (h : ∀ found ∈ rowsAt path [row], f found = g found) : modifyAt f path row = modifyAt g path row := by
  induction path generalizing row with
  | nil => exact h row (List.mem_singleton.2 rfl)
  | cons name rest ih =>
    rw [rowsAt_cons] at h
    unfold modifyAt
    cases hget : Entries.get? name row.related with
    | none => rfl
    | some related =>
      rw [hget, Option.map_some, Option.getD_some] at h
      cases related with
      | absent => rfl
      | one member =>
        have hmember : modifyAt f rest member = modifyAt g rest member := ih h
        simp only [hmember]
      | many members =>
        have hmembers : members.map (modifyAt f rest) = members.map (modifyAt g rest) :=
          List.map_congr_left fun member hm =>
            ih fun found hfound => h found (mem_rowsAt.2 ⟨member, hm, hfound⟩)
        simp only [hmembers]

/-- Attaches under a name what a change makes of the rows there, if it makes anything of them. -/
def edit (name : String) (change : Related → Option Related) (row : Row) : Row :=
  match (Entries.get? name row.related).bind change with
  | none => row
  | some related => row.attach name related

theorem modifyAt_cons (f : Row → Row) (name : String) (rest : List String) (row : Row) :
    modifyAt f (name :: rest) row = row.edit name (Related.mapRows? (modifyAt f rest)) := by
  unfold modifyAt edit
  cases Entries.get? name row.related with
  | none => rfl
  | some related => cases related <;> rfl

theorem get?_edit_of_ne {name other : String} (h : other ≠ name) (change : Related → Option Related)
    (row : Row) : Entries.get? other (row.edit name change).related = Entries.get? other row.related := by
  unfold edit
  split
  · rfl
  · exact Entries.get?_insert_of_ne h ..

theorem attach_comm {name other : String} (h : name ≠ other) (related otherRelated : Related) (row : Row) :
    (row.attach name related).attach other otherRelated
      = (row.attach other otherRelated).attach name related :=
  congrArg (mk row.record) (Entries.insert_comm h.symm otherRelated related row.related)

theorem attach_attach_self (name : String) (related other : Related) (row : Row) :
    (row.attach name other).attach name related = row.attach name related :=
  congrArg (mk row.record) (Entries.insert_insert_self name related other row.related)

/-- Rows under two names may be changed in any order. -/
theorem edit_comm {name other : String} (h : name ≠ other) (change otherChange : Related → Option Related)
    (row : Row) : (row.edit name change).edit other otherChange
      = (row.edit other otherChange).edit name change := by
  rw [edit, get?_edit_of_ne h.symm]
  conv_rhs => rw [edit, get?_edit_of_ne h]
  unfold edit
  cases (Entries.get? name row.related).bind change with
  | none => cases (Entries.get? other row.related).bind otherChange <;> rfl
  | some related =>
    cases (Entries.get? other row.related).bind otherChange with
    | none => rfl
    | some otherRelated => exact attach_comm h related otherRelated row

/-- Rows under one name that are changed twice are changed by both changes. -/
theorem edit_mapRows?_mapRows? (name : String) (f g : Row → Row) (row : Row) :
    (row.edit name (Related.mapRows? g)).edit name (Related.mapRows? f)
      = row.edit name (Related.mapRows? (f ∘ g)) := by
  cases h : Entries.get? name row.related with
  | none => simp [edit, h]
  | some related =>
    cases related with
    | absent => simp [edit, h, Related.mapRows?]
    | one member => simp [edit, h, Related.mapRows?, attach_attach_self]
    | many members => simp [edit, h, Related.mapRows?, attach_attach_self]

/-- Changes at the ends of two paths of one length may be made in any order, if they may be where the paths
are the same. -/
theorem modifyAt_comm {f g : Row → Row} {path other : List String} (hlength : path.length = other.length)
    (h : path = other → ∀ row, f (g row) = g (f row)) (row : Row) :
    modifyAt f path (modifyAt g other row) = modifyAt g other (modifyAt f path row) := by
  induction path generalizing other row with
  | nil =>
    obtain rfl := List.eq_nil_of_length_eq_zero hlength.symm
    exact h rfl row
  | cons name rest ih =>
    obtain ⟨next, others, rfl⟩ := List.exists_cons_of_length_eq_add_one hlength.symm
    simp only [modifyAt_cons]
    by_cases hname : name = next
    · subst hname
      have hrest := ih (Nat.succ.inj hlength) fun hsame => h (congrArg (name :: ·) hsame)
      rw [edit_mapRows?_mapRows?, edit_mapRows?_mapRows?]
      exact congrArg (fun change => row.edit name (Related.mapRows? change)) (funext hrest)
    · exact edit_comm (Ne.symm hname) _ _ row

/-- Attaches members at the end of a path, to each row there those that are given for its record. -/
def attachAt (path : List String) (members : Record → List Row) : Row → Row :=
  modifyAt (fun row => row.attach (path.getLastD "") (.many (members row.record))) path.dropLast

@[simp] theorem record_attachAt (path : List String) (members : Record → List Row) (row : Row) :
    (row.attachAt path members).record = row.record := by
  unfold attachAt
  cases path.dropLast with
  | nil => rfl
  | cons name rest => exact record_modifyAt_cons _ name rest row

theorem record_foldl_attachAt {α : Type} (items : List α) (path : α → List String)
    (members : α → Record → List Row) (row : Row) :
    (items.foldl (fun row item => row.attachAt (path item) (members item)) row).record = row.record := by
  induction items generalizing row with
  | nil => rfl
  | cons item items ih => rw [List.foldl_cons, ih, record_attachAt]

/-- Members may be attached at two paths of one length in any order. -/
theorem attachAt_comm {path other : List String} (hlength : path.length = other.length)
    (hne : path ≠ other) (members otherMembers : Record → List Row) (row : Row) :
    (row.attachAt path members).attachAt other otherMembers
      = (row.attachAt other otherMembers).attachAt path members := by
  refine (modifyAt_comm (by simp [hlength]) (fun hsame row => ?_) row).symm
  have hlast : path.getLastD "" ≠ other.getLastD "" := by
    intro hlast
    have hpath : path ≠ [] := by
      rintro rfl
      exact hne (List.eq_nil_of_length_eq_zero hlength.symm).symm
    have hother : other ≠ [] := by
      rintro rfl
      exact hne (List.eq_nil_of_length_eq_zero hlength)
    rw [← List.dropLast_append_getLastD hpath, ← List.dropLast_append_getLastD hother, hsame,
      hlast] at hne
    exact hne rfl
  exact (attach_comm hlast _ _ row).symm

end Row

namespace ScopedFetch

/-- Keeping the first identity of every key keeps every key. -/
theorem foldl_parentsOf (items : List Identity) (seen : List String) (kept : List Identity)
    (hseen : ∀ key ∈ seen, ∃ j ∈ kept, j.key = key) :
    let parents := (items.foldl (fun (seen, kept) i =>
      if i.key ∈ seen then (seen, kept) else (i.key :: seen, kept ++ [i])) (seen, kept)).2
    (∀ j ∈ kept, j ∈ parents) ∧ ∀ i ∈ items, ∃ j ∈ parents, j.key = i.key := by
  induction items generalizing seen kept with
  | nil => exact ⟨fun _ hj => hj, by simp⟩
  | cons i items ih =>
    by_cases hi : i.key ∈ seen
    · obtain ⟨hkept, hkeys⟩ := ih seen kept hseen
      simp only [List.foldl_cons, if_pos hi]
      refine ⟨hkept, fun d hd => ?_⟩
      rcases List.mem_cons.1 hd with rfl | hd
      · obtain ⟨j, hj, hkey⟩ := hseen d.key hi
        exact ⟨j, hkept j hj, hkey⟩
      · exact hkeys d hd
    · obtain ⟨hkept, hkeys⟩ := ih (i.key :: seen) (kept ++ [i]) (by grind)
      simp only [List.foldl_cons, if_neg hi]
      refine ⟨fun j hj => hkept j (List.mem_append_left _ hj), fun d hd => ?_⟩
      rcases List.mem_cons.1 hd with rfl | hd
      · exact ⟨d, hkept d (by simp), rfl⟩
      · exact hkeys d hd

/-- Every row has a parent of its key. -/
theorem exists_mem_parentsOf {r : Resource} {rows : List Row} {row : Row} {i : Identity}
    (hrow : row ∈ rows) (hi : r.identityOf? row.record = some i) :
    ∃ j ∈ parentsOf r rows, j.key = i.key :=
  (foldl_parentsOf (rows.filterMap fun row : Row => r.identityOf? row.record) [] [] (by simp)).2 i
    (List.mem_filterMap.2 ⟨row, hrow, hi⟩)

/-- A row is handed what was found for its key, if that depends on the key alone. -/
theorem membersOf_eq {r : Resource} {parents : List Identity} {found : String → List Row} {row : Row}
    {i : Identity} (hi : r.identityOf? row.record = some i)
    (hparent : ∃ j ∈ parents, j.key = i.key) :
    membersOf r (parents.map fun j => ⟨j, found j.key⟩) row = found i.key := by
  obtain ⟨j, hj, hkey⟩ := hparent
  simp only [membersOf, hi, List.find?_map, Option.map_map]
  cases hfind : parents.find? ((fun s : RelatedRows => decide (s.parent.key = i.key)) ∘
      fun j => ⟨j, found j.key⟩) with
  | none =>
    rw [List.find?_eq_none] at hfind
    exact absurd hkey (by simpa using hfind j hj)
  | some k =>
    have hk : k.key = i.key := by simpa using List.find?_some hfind
    simp [hk]

/-- A fetch attaches the members found for each row above it; without parents none are found. -/
theorem run_eq_map {s : ScopedFetch} {t : Tables} {schema : Schema} {rows : List Row}
    {parent : Resource} {found : List RelatedRows}
    (hparent : schema.require s.request.resource = .ok parent)
    (hfetch : t.fetchRelated schema
      { s.request with parents := parentsOf parent (Row.rowsAt s.path.dropLast rows) } = .ok found)
    (hempty : parentsOf parent (Row.rowsAt s.path.dropLast rows) = [] → found = []) :
    s.run t schema rows = .ok (rows.map (Row.modifyAt (fun row =>
      row.attach s.request.relationship (.many (membersOf parent found row))) s.path.dropLast)) := by
  refine Except.bind_eq_ok.2 ⟨parent, hparent, ?_⟩
  dsimp only
  split
  · rename_i hnone
    rw [hempty (List.isEmpty_iff.1 hnone)]
    rfl
  · exact Except.bind_eq_ok.2 ⟨found, hfetch, rfl⟩

end ScopedFetch

end NestedResources
