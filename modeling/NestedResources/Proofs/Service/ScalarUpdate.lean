import NestedResources.Proofs.Service.Batch
import NestedResources.Proofs.Write.Echo
import NestedResources.Proofs.Write.Single

/-!
# Updates that write scalars

A document of which every member is a field plans at most one command, which writes the columns of the
fields that differ from the stored row. Committed, it leaves every other column, row and link as it was,
and reports a write if and only if the row has changed (`WriteOp.update_scalars`).
-/
namespace NestedResources

namespace Resource

variable {r : Resource} {stored : Option Record} {values start record : Record} {key column : String} {raw : Json}
  {members : List (String × Json)}

/-- A field is no relationship, so a document reads it unless it is named as an op or a link. -/
theorem not_skips_of_field {s : Schema} {f : Field} (hr : s.resource? r.name = some r)
    (hf : r.field? key = some f) (hself : key ≠ selfKey) (hop : key ≠ DocumentOp.key) : ¬r.Skips key := by
  rintro (h | h | h)
  · exact hop h
  · exact hself h
  · rw [Schema.relationship?_of_field? hr hf] at h
    cases h

/-- A column of no field of a document is not written. -/
theorem get?_of_not_named (hcolumn : ∀ m ∈ members, ∀ f, r.field? m.1 = some f → f.column ≠ column)
    (h : r.values? stored members = some values) : values.get? column = none := by
  refine readMembers_induction (p := fun values => values.get? column = none) rfl ?_ h
  intro before next key raw hmem _ ih hread
  obtain ⟨f, value, hf, -, ⟨rfl, -⟩ | ⟨rfl, -⟩⟩ := readValue?_eq_some hread
  · exact ih
  · rw [Dict.get?_insert_of_ne _ (Ne.symm (hcolumn _ hmem f hf)), ih]

/-- The fields of a resource, each with a column of its own, none of them named as an op or a link. -/
structure Plain (r : Resource) : Prop where
  columns : (r.fields.map Field.column).Nodup
  readable : ∀ f ∈ r.fields, f.name ≠ selfKey ∧ f.name ≠ DocumentOp.key

instance (r : Resource) : Decidable r.Plain :=
  decidable_of_iff (_ ∧ _) ⟨fun h => ⟨h.1, h.2⟩, fun h => ⟨h.columns, h.readable⟩⟩

theorem Plain.eq_of_column (h : r.Plain) {f g : Field} (hf : f ∈ r.fields) (hg : g ∈ r.fields)
    (hcolumn : g.column = f.column) : g = f :=
  List.inj_on_of_nodup_map h.columns hg hf hcolumn

theorem Plain.not_skips (h : r.Plain) {s : Schema} {f : Field} (hr : s.resource? r.name = some r)
    (hf : r.field? key = some f) : ¬r.Skips key := by
  have hname : f.name = key := by simpa using List.find?_some hf
  obtain ⟨hself, hop⟩ := h.readable f (List.mem_of_find?_eq_some hf)
  exact not_skips_of_field hr hf (hname ▸ hself) (hname ▸ hop)

end Resource

/-- A value that passes is the coerced one, also if it is null. -/
theorem Field.coerce_eq_of_check {f : Field} {path : String} {raw v : Json} (h : f.check path raw = .ok v) :
    f.type.coerce raw = .ok v := by
  by_cases hraw : raw = .null
  · subst hraw
    rw [FieldType.coerce_null]
    unfold check at h
    rw [if_pos (show Json.null.isNull = true from rfl)] at h
    split at h
    · cases h
      rfl
    · cases h
  · exact coerce_of_check hraw h

/-- Whether a column holds a value, or one that compares equal to it. -/
def Field.Holds (f : Field) (record : Record) (v : Json) : Prop :=
  (f.valueIn record).same v = true ∨ comparesEqual f.type (f.valueIn record) v = true

theorem Field.holds_of_get? {f : Field} {record : Record} {v : Json} (h : record.get? f.column = some v) :
    f.Holds record v := by
  rw [Holds, valueIn, h]
  exact .inl (Json.same_refl v)

theorem Field.holds_of_isUnchanged {f : Field} {record : Record} {v : Json}
    (h : f.isUnchanged (record.get? f.column) v = true) : f.Holds record v := by
  unfold isUnchanged at h
  rw [Holds, valueIn]
  split at h
  · rename_i hnone
    rw [hnone]
    cases v <;> first | exact .inl rfl | cases h
  · rename_i hnull
    rw [hnull]
    cases v <;> first | exact .inl rfl | cases h
  · rename_i old _ hold
    rw [hold]
    exact Bool.or_eq_true_iff.1 h

namespace WalkSite

open Walking

variable {site : WalkSite} {after : Walk} {r : Resource} {i : Identity} {mode : WriteMode}
  {members : List (String × Json)} {roots : List EntityRef}

/-- A document of fields finds its entity and plans to write the values that differ from its row. -/
theorem update_fields_plan (hr : site.registry.schema.resource? r.name = some r)
    (hpinpoints : site.tables.Pinpoints r i) (hfields : ∀ m ∈ members, ¬r.Skips m.1)
    (h : (site.update r.name i (.obj members) mode).run.run {} = (.ok roots, after)) (hclean : after.issues = []) :
    ∃ record values, site.tables.Stores r i record ∧ r.values? (some record) members = some values ∧
      after.plan.commands = if values.isEmpty then [] else [.update r.name (.existing i) values] := by
  obtain ⟨_, _, hrequire, h⟩ := bind_eq_ok h
  obtain ⟨hresource, rfl⟩ := liftM_eq_ok hrequire
  cases (Schema.require_eq_ok.1 hresource).symm.trans hr
  obtain ⟨visited, _, hvisit, h⟩ := bind_eq_ok h
  cases h
  rw [visitRoot, visit] at hvisit
  obtain ⟨opened, opening, hopened, hvisit⟩ := bind_eq_ok hvisit
  have hop : DocumentOp.ofMembers? members = .ok none := by
    have hnone : Entries.get? DocumentOp.key members = none :=
      Option.eq_none_iff_forall_ne_some.2 fun raw hraw => hfields _ (Entries.mem_of_get? hraw) (.inl rfl)
    rw [DocumentOp.ofMembers?, hnone]
  obtain ⟨record, htop, rfl⟩ := openObject_of_no_op hr hpinpoints hop hopened
  dsimp only at hvisit
  obtain ⟨values, read, hread, hvisit⟩ := bind_eq_ok hvisit
  obtain ⟨qs, hasked, -⟩ := readFields_eq_ok hread
  -- No member is a relationship, so the walk ends where the entity is placed.
  have hplaced : ∀ {between : Walk}, site.AtTop r i record between →
      (do
        let reference ← site.place (storedRoot r i record) members values
        site.attach (storedRoot r i record) none members reference
        site.visitRelationships (storedRoot r i record) reference mode members
        pure (some ⟨reference, false⟩) : Walking (Option Visited)).run.run between = (.ok visited, after) →
      between.issues = [] ∧ after.plan.commands =
        if values.isEmpty then [] else [.update r.name (.existing i) values] := by
    intro between hbetween h
    obtain ⟨reference, placed, hplace, h⟩ := bind_eq_ok h
    obtain ⟨_, _, hattach, h⟩ := bind_eq_ok h
    cases hattach
    obtain ⟨_, walked, hwalk, h⟩ := bind_eq_ok h
    cases h
    obtain rfl := eq_of_visitRelationships (fun m hm rel hrel =>
      absurd (.inr (.inr (Option.isSome_of_eq_some (Resource.relationship?_of_walked? hrel)))) (hfields m hm)) hwalk
    have hplaces := places_of_place hplace
    refine ⟨hplaces.issues.symm.trans hclean, ?_⟩
    rw [hplaces.commands, hbetween.commands]
    rfl
  split at hvisit
  · obtain ⟨_, required, hrequired, hvisit⟩ := bind_eq_ok hvisit
    have hrequires : site.Asked [] read required := requireFields_asked hrequired
    obtain ⟨hissues, hcommands⟩ := hplaced ((htop.asked hasked).asked hrequires) hvisit
    exact ⟨record, values, htop.stores, values?_of_readFields hread (hrequires.clean hissues), hcommands⟩
  · obtain ⟨hissues, hcommands⟩ := hplaced (htop.asked hasked) hvisit
    exact ⟨record, values, htop.stores, values?_of_readFields hread hissues, hcommands⟩

end WalkSite

namespace WriteOp

variable {g : Registry} {ctx : Context} {r : Resource} {i : Identity} {record : Record} {mode : WriteMode}
  {members : List (String × Json)} {d after : Desk} {o : Outcome}

/-- An update that writes fields, and nothing else. Whatever the gates are, if it succeeds, the column of
each field that the document names holds the coerced value of the document, or one that compares equal to
it; every other column of the row, every other row and every link is as it was; and one write is reported
if the row has changed, and none if it is as it was. -/
theorem update_scalars (hr : g.schema.resource? r.name = some r) (hplain : r.Plain)
    (htypes : ∀ f ∈ r.identityFields, f.type.isExact = true) (hfiled : d.store.tables.FiledExactly r)
    (hstores : d.store.tables.Stores r i record) (hnodup : (members.map (·.1)).Nodup)
    (hfields : ∀ m ∈ members, (r.field? m.1).isSome = true)
    (hcommit : (Serving.commit g ctx (update r.name i (.obj members) mode).walk).on d = (.ok o, after)) :
    ∃ next, after.store.tables.row? r.name i = some next ∧
      (∀ m ∈ members, ∃ f v, r.field? m.1 = some f ∧ f.type.coerce m.2 = .ok v ∧ f.Holds next v) ∧
      (∀ column, (∀ m ∈ members, ∀ f, r.field? m.1 = some f → f.column ≠ column) →
        next.get? column = record.get? column) ∧
      (∀ resource key, resource ≠ r.name ∨ key ≠ i.key →
        after.store.tables.rowAt? resource key = d.store.tables.rowAt? resource key) ∧
      (∀ name, after.store.tables.linksOf name = d.store.tables.linksOf name) ∧
      ((o.writes = 0 ∧ next = record) ∨ (o.writes = 1 ∧ Record.same next record = false)) := by
  have hread : ∀ m ∈ members, ¬r.Skips m.1 := by
    intro m hm
    obtain ⟨f, hf⟩ := Option.isSome_iff_exists.1 (hfields m hm)
    exact hplain.not_skips hr hf
  obtain ⟨roots, w, p, hrun, hclean, happly, -, rfl, hstore⟩ := Serving.exists_report_of_commit_ok hcommit
  obtain ⟨found, values, hfound, hvalues, hcommands⟩ :=
    WalkSite.update_fields_plan hr (hfiled.pinpoints htypes hstores g.schema) hread hrun hclean
  obtain rfl : found = record := Option.some.inj (hfound.row.symm.trans hstores.row)
  rw [hstore]
  refine ⟨found.union values, ?_⟩
  have hnamed : ∀ m ∈ members, ∃ f v, r.field? m.1 = some f ∧ f.type.coerce m.2 = .ok v ∧
      f.Holds (found.union values) v := by
    intro m hm
    obtain ⟨f, hf⟩ := Option.isSome_iff_exists.1 (hfields m hm)
    have hname : f.name = m.1 := by simpa using List.find?_some hf
    have hmem : f ∈ r.fields := List.mem_of_find?_eq_some hf
    obtain ⟨v, hcheck, hwritten⟩ := Resource.written_of_mem (hname ▸ hf) (hname ▸ hread m hm)
      (fun g hg hcolumn => hplain.eq_of_column hmem hg hcolumn) hnodup
      (show (f.name, m.2) ∈ members from hname ▸ hm) hvalues
    refine ⟨f, v, hf, Field.coerce_eq_of_check hcheck, ?_⟩
    rcases hwritten with hv | ⟨hkept, stored, hstored, hunchanged⟩
    · exact Field.holds_of_get? (by rw [Dict.get?_union, hv, Option.some_or])
    · cases hstored
      refine Field.holds_of_isUnchanged ?_
      rw [Dict.get?_union, show values.get? f.column = none from hkept, Option.none_or]
      exact hunchanged
  have hother : ∀ column, (∀ m ∈ members, ∀ f, r.field? m.1 = some f → f.column ≠ column) →
      (found.union values).get? column = found.get? column := by
    intro column hcolumn
    rw [Dict.get?_union, Resource.get?_of_not_named hcolumn hvalues, Option.none_or]
  rw [hcommands] at happly
  cases hvalues' : values.isEmpty with
  | true =>
    rw [hvalues', if_pos rfl] at happly
    cases happly
    have hsame : found.union values = found := by
      rw [Dict.union, List.isEmpty_iff.1 hvalues']
      rfl
    exact ⟨hsame.symm ▸ hfound.row, hnamed, hother, fun _ _ _ => rfl, fun _ => rfl, .inl ⟨rfl, hsame⟩⟩
  | false =>
    rw [hvalues', if_neg Bool.false_ne_true, List.foldlM_cons, Progress.apply] at happly
    obtain ⟨q, hupdate, hlast⟩ := Except.bind_eq_ok.1 happly
    cases hlast
    have hchanged := Resource.same_union_of_values? hvalues hvalues'
    have hrow : (Progress.tables { store := d.store }).row? r.name i = some found := hfound.row
    obtain rfl := Progress.updateRow_eq_ok hr rfl hrow hchanged hupdate
    refine ⟨Tables.rowAt?_putRow_self .., hnamed, hother, ?_, fun _ => rfl, .inr ⟨rfl, hchanged⟩⟩
    rintro resource key (hresource | hkey)
    · exact Tables.rowAt?_putRow_of_resource_ne _ _ _ hresource key
    · by_cases hresource : resource = r.name
      · subst hresource
        exact Tables.rowAt?_putRow_of_key_ne _ _ _ hkey
      · exact Tables.rowAt?_putRow_of_resource_ne _ _ _ hresource key

end WriteOp

namespace Music

/-- A new title, and the number of the manager that the employee has, spelt as a text. -/
def promotion : List (String × Json) := [("title", .str "Lead"), ("reports_to", .str "2")]

def promoteLead : Serving Outcome :=
  Serving.commit openStaff ⟨.empty⟩ (WriteOp.update "employees" ⟨[.int 3]⟩ (.obj promotion) .patch).walk

/-- The promotion of the third employee writes the title and leaves the manager, the last name and the
other employees as they are. -/
theorem promotion_scalars : ∃ o after next, promoteLead.on staffDesk = (.ok o, after) ∧
    after.store.tables.row? "employees" ⟨[.int 3]⟩ = some next ∧
    (∃ f, employees.field? "title" = some f ∧ f.Holds next (.str "Lead")) ∧
    (∃ f, employees.field? "reports_to" = some f ∧ f.Holds next (.int 2)) ∧
    next.get? "last_name" = some (.str "Peacock") ∧
    after.store.tables.rowAt? "employees" "4" = staffDesk.store.tables.rowAt? "employees" "4" ∧
    (o.writes = 0 ∨ o.writes = 1) := by
  have hok : (promoteLead.on staffDesk).1.isOk = true := by decide +kernel
  rcases hcommit : promoteLead.on staffDesk with ⟨result, after⟩
  rw [hcommit] at hok
  obtain ⟨o, rfl⟩ := Except.exists_of_isOk hok
  have hstores : staffDesk.store.tables.Stores employees ⟨[.int 3]⟩ employeeRows[2].record := ⟨rfl, rfl⟩
  obtain ⟨next, hnext, hnamed, hother, hrows, -, hwrites⟩ :=
    WriteOp.update_scalars (r := employees) (by decide +kernel) (by decide +kernel) (by decide +kernel)
      filedExactly_staffDesk hstores (by decide +kernel) (by decide +kernel) hcommit
  refine ⟨o, after, next, rfl, hnext, ?_, ?_, ?_, hrows "employees" "4" (.inr (by decide +kernel)), ?_⟩
  · obtain ⟨f, v, hf, hv, hholds⟩ := hnamed ("title", .str "Lead") List.mem_cons_self
    cases hf
    cases hv
    exact ⟨_, rfl, hholds⟩
  · obtain ⟨f, v, hf, hv, hholds⟩ := hnamed ("reports_to", .str "2") (List.mem_cons_of_mem _ List.mem_cons_self)
    cases hf
    have hcoerced : FieldType.integer.coerce (.str "2") = .ok (.int 2) := by rfl
    cases hcoerced.symm.trans hv
    exact ⟨_, rfl, hholds⟩
  · refine (hother "last_name" fun m hm f hf => ?_).trans rfl
    simp only [promotion, List.mem_cons, List.not_mem_nil, or_false] at hm
    rcases hm with rfl | rfl <;> cases hf <;> decide
  · exact hwrites.imp And.left And.left

end Music

end NestedResources
