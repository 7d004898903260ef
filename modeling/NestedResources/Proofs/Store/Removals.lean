import NestedResources.Proofs.Store.Edits

/-!
# Deleting one entity after the other

A plan that deletes several entities of a resource deletes the first one with all that goes along, and
goes on from what is left. An entity that went along with an earlier one is not there any more when its
turn comes, and the plan fails (`Progress.deletes_cases`).
-/
namespace NestedResources

/-- What is left without some entities of a resource: they are gone, whatever else is gone went along with
one of them, and the rest has faded. -/
structure Tables.Without (t : Tables) (s : Schema) (name : String) (deleted : List Identity)
    (after : Tables) : Prop where
  fades : t.Fades after
  gone : ∀ i ∈ deleted, after.row? name i = none
  along : ∀ n k old, t.rowAt? n k = some old → after.rowAt? n k = none →
    ∃ i ∈ deleted, t.Cascades s name i.key n k

theorem Tables.Without.refl (t : Tables) (s : Schema) (name : String) : t.Without s name [] t :=
  ⟨.refl t, fun _ hi => (List.not_mem_nil hi).elim, fun _ _ _ hold hnone => by
    cases hold.symm.trans hnone⟩

/-- A row that is missing stays missing. -/
theorem Tables.Fades.rowAt?_eq_none {t u : Tables} (h : t.Fades u) {name key : String}
    (hnone : t.rowAt? name key = none) : u.rowAt? name key = none := by
  cases hrow : u.rowAt? name key with
  | none => rfl
  | some new =>
    obtain ⟨old, hold, -⟩ := h.rows name key new hrow
    cases hnone.symm.trans hold

namespace Progress

variable {s : Schema} {start p q : Progress} {c : Command}

/-! ## One entity -/

theorem isSome_rowAt?_writeRow {name key other k : String} {record : Record}
    (h : (p.tables.rowAt? name key).isSome = true) :
    ((p.writeRow other k record).tables.rowAt? name key).isSome = true := by
  change ((p.tables.putRow other k record).rowAt? name key).isSome = true
  rw [Tables.rowAt?_putRow]
  split
  · rfl
  · exact h

theorem isSome_rowAt?_assign {name key other : String} {i : Identity} {columns : List String}
    {values : List Json} (h : (p.tables.rowAt? name key).isSome = true) :
    ((p.assign other i columns values).tables.rowAt? name key).isSome = true := by
  rcases assign_cases p other i columns values with hsame | ⟨record, -, hwrites⟩
  · rw [hsame]
    exact h
  · rw [hwrites]
    exact isSome_rowAt?_writeRow h

/-- Only deletions lose rows. -/
theorem Edit.deletes_of_missing (hedit : Edit s start c p q) {name key : String}
    (h : (p.tables.rowAt? name key).isSome = true) (hnone : q.tables.rowAt? name key = none) :
    c.Deletes s start name key := by
  have hlost : (q.tables.rowAt? name key).isSome = true → c.Deletes s start name key := fun hkept => by
    rw [hnone] at hkept
    cases hkept
  cases hedit with
  | aside hrows _ => exact hlost ((rowAt?_of_rows_eq hrows name key).symm ▸ h)
  | write => exact hlost (isSome_rowAt?_writeRow h)
  | assign => exact hlost (isSome_rowAt?_assign h)
  | clear => exact hlost (isSome_rowAt?_assign h)
  | @drop _ resource gone hc htables _ =>
    rw [htables, Tables.rowAt?_dropRow] at hnone
    split at hnone
    · rename_i hsame
      obtain ⟨rfl, rfl⟩ := hsame
      exact hc
    · rw [hnone] at h
      cases h

theorem Edits.deletes_of_missing (hedits : Edits s start c p q) {name key : String}
    (h : (p.tables.rowAt? name key).isSome = true) (hnone : q.tables.rowAt? name key = none) :
    c.Deletes s start name key := by
  induction hedits with
  | refl =>
    rw [hnone] at h
    cases h
  | @tail between after _ hlast ih =>
    cases hrow : between.tables.rowAt? name key with
    | none => exact ih hrow
    | some record => exact hlast.deletes_of_missing (by rw [hrow]; rfl) hnone

/-- A deleted entity is gone. -/
theorem row?_removeEntity (p : Progress) (s : Schema) (r : Resource) (i : Identity) :
    (p.removeEntity s r i).tables.row? r.name i = none := by
  unfold removeEntity Deletion.remove
  rw [if_neg List.not_mem_nil]
  dsimp only
  split
  · assumption
  · unfold Tables.row?
    rw [Deletion.rowAt?_dropRow, if_pos ⟨rfl, rfl⟩]

variable {t : Tables} {r : Resource} {i : Identity}

theorem apply_delete_of_missing (hr : s.resource? r.name = some r) (hrow : p.tables.row? r.name i = none) :
    p.apply s (.delete r.name (.existing i)) = .error (.notFound r.name i.key) := by
  change p.deleteRow s r.name (.existing i) = _
  unfold deleteRow
  rw [Schema.require_eq_ok.2 hr]
  dsimp only [bind, Except.bind, resolve]
  rw [hrow]
  rfl

theorem apply_delete_of_stored {record : Record} (hr : s.resource? r.name = some r)
    (hrow : p.tables.row? r.name i = some record) :
    p.apply s (.delete r.name (.existing i)) = .ok (p.removeEntity s r i) := by
  change p.deleteRow s r.name (.existing i) = _
  unfold deleteRow
  rw [Schema.require_eq_ok.2 hr]
  dsimp only [bind, Except.bind, resolve]
  rw [hrow]
  rfl

theorem fades_removeEntity (p : Progress) (hr : s.resource? r.name = some r) (i : Identity) :
    p.tables.Fades (p.removeEntity s r i).tables := by
  have hdeletes : (Command.delete r.name (.existing i)).Deletes s p r.name i.key := ⟨i, rfl, .target⟩
  exact (Deletion.goes_remove (p.tables.size + 1) r i ⟨p, []⟩ hr hdeletes (.refl p.tables)).2

/-- One entity more is deleted. -/
theorem without_removeEntity {gone : List Identity} (h : t.Without s r.name gone p.tables)
    (hr : s.resource? r.name = some r) (i : Identity) :
    t.Without s r.name (gone ++ [i]) (p.removeEntity s r i).tables := by
  have hdeletes : (Command.delete r.name (.existing i)).Deletes s p r.name i.key := ⟨i, rfl, .target⟩
  have hfades := p.fades_removeEntity hr i
  refine ⟨h.fades.trans hfades, fun j hj => ?_, fun n k old hold hnone => ?_⟩
  · rcases List.mem_append.1 hj with hbefore | hlast
    · exact hfades.rowAt?_eq_none (h.gone j hbefore)
    · rw [List.mem_singleton.1 hlast]
      exact row?_removeEntity p s r i
  · cases hrow : p.tables.rowAt? n k with
    | none =>
      obtain ⟨j, hj, hgoes⟩ := h.along n k old hold hrow
      exact ⟨j, List.mem_append_left _ hj, hgoes⟩
    | some row =>
      obtain ⟨j, hj, hgoes⟩ := (edits_removeEntity hr hdeletes (.refl p.tables)).deletes_of_missing
        (by rw [hrow]; rfl) hnone
      cases hj
      exact ⟨i, List.mem_append_right _ List.mem_cons_self, h.fades.cascades hgoes⟩

/-! ## Several entities -/

/-- The commands that delete entities one after the other. -/
def deletions (name : String) (items : List Identity) : List Command :=
  items.map fun i => .delete name (.existing i)

/-- Entities that are stored are deleted one after the other, unless one of them went along with one
before. -/
theorem deletes_cases {done : List Identity} (hr : s.resource? r.name = some r)
    (h : t.Without s r.name done p.tables) {items : List Identity}
    (hstored : ∀ i ∈ items, ∃ record, t.row? r.name i = some record) :
    (∃ q, (deletions r.name items).foldlM (Progress.apply s) p = .ok q ∧
        t.Without s r.name (done ++ items) q.tables) ∨
      ∃ before i rest, items = before ++ i :: rest ∧
        (∃ j ∈ done ++ before, t.Cascades s r.name j.key r.name i.key) ∧
        (deletions r.name items).foldlM (Progress.apply s) p = .error (.notFound r.name i.key) := by
  induction items generalizing done p with
  | nil =>
    refine .inl ⟨p, rfl, ?_⟩
    rwa [List.append_nil]
  | cons i items ih =>
    have hcommands : deletions r.name (i :: items) =
      .delete r.name (.existing i) :: deletions r.name items := rfl
    rw [hcommands, List.foldlM_cons]
    obtain ⟨old, hold⟩ := hstored i List.mem_cons_self
    cases hrow : p.tables.row? r.name i with
    | none =>
      rw [apply_delete_of_missing hr hrow]
      refine .inr ⟨[], i, items, rfl, ?_, rfl⟩
      rw [List.append_nil]
      exact h.along r.name i.key old hold hrow
    | some record =>
      rw [apply_delete_of_stored hr hrow]
      have hshift : ∀ rest, done ++ [i] ++ rest = done ++ i :: rest := fun rest => by
        rw [List.append_assoc, List.singleton_append]
      rcases ih (without_removeEntity h hr i) fun j hj => hstored j (List.mem_cons_of_mem i hj) with
        ⟨q, hq, hwithout⟩ | ⟨before, j, rest, rfl, hgoes, herror⟩
      · refine .inl ⟨q, hq, ?_⟩
        rwa [hshift] at hwithout
      · refine .inr ⟨i :: before, j, rest, rfl, ?_, herror⟩
        rwa [hshift] at hgoes

end Progress

end NestedResources
