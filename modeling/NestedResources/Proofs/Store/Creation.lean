import NestedResources.Proofs.Store.Edits

/-!
# The rows that creations file

A creation is refused for an identity column that is neither set nor assigned, or for a key that is taken.
Otherwise it files a row in which exactly the columns that were written and those of the identity are set.
-/
namespace NestedResources

theorem Record.isSome_value?_insert {record : Record} {c column : String} {v : Json} (hv : v ≠ .null) :
    (Record.value? (record.insert column v) c).isSome = true ↔
      (record.value? c).isSome = true ∨ c = column := by
  by_cases hc : c = column
  · subst hc
    simp [value?_of_get? (Dict.get?_insert_self ..) hv]
  · simp [value?_congr (Dict.get?_insert_of_ne record hc v), hc]

/-- A row with every identity column has an identity. -/
theorem Resource.exists_identityOf? {r : Resource} {record : Record}
    (h : ∀ f ∈ r.identityFields, (record.value? f.column).isSome = true) :
    ∃ i, r.identityOf? record = some i := by
  have hvalues : ∀ fs : List Field, (∀ f ∈ fs, (record.value? f.column).isSome = true) →
      ∃ values, fs.mapM (fun (f : Field) => record.value? f.column) = some values := by
    intro fs hfs
    induction fs with
    | nil => exact ⟨[], rfl⟩
    | cons f fs ih =>
      obtain ⟨v, hv⟩ := Option.isSome_iff_exists.1 (hfs f List.mem_cons_self)
      obtain ⟨vs, hvs⟩ := ih fun g hg => hfs g (List.mem_cons_of_mem f hg)
      exact ⟨v :: vs, by simp [hv, hvs]⟩
  obtain ⟨values, hok⟩ := hvalues r.identityFields h
  exact ⟨⟨values⟩, by rw [identityOf?, hok]; rfl⟩

namespace Progress

variable {schema : Schema} {r : Resource} {values : Record}

/-- Filling in an identity fails for a column that is neither set nor assigned; otherwise it sets the
identity columns and keeps what is set. -/
theorem fillIdentity_cases (r : Resource) (fs : List Field) (p : Progress) (values : Record) :
    (∃ f ∈ fs, (values.value? f.column).isSome = false ∧ f.generated = false ∧
      fillIdentity r fs p values = .error (.conflict (.identityMissing r.name f.name))) ∨
    ∃ q record, fillIdentity r fs p values = .ok (q, record) ∧
      ∀ c, (record.value? c).isSome = true ↔ (values.value? c).isSome = true ∨ c ∈ fs.map Field.column := by
  induction fs generalizing p values with
  | nil => exact .inr ⟨p, values, rfl, by simp⟩
  | cons f fs ih =>
    -- Whatever is assigned to the column of `f`, the other columns are as they were.
    have hassigned : ∀ (q : Progress) {v : Json}, v ≠ .null → (values.value? f.column).isSome = false →
        (∃ g ∈ f :: fs, (values.value? g.column).isSome = false ∧ g.generated = false ∧
          fillIdentity r fs q (values.insert f.column v) = .error (.conflict (.identityMissing r.name g.name))) ∨
        ∃ after record, fillIdentity r fs q (values.insert f.column v) = .ok (after, record) ∧
          ∀ c, (record.value? c).isSome = true ↔
            (values.value? c).isSome = true ∨ c ∈ (f :: fs).map Field.column := by
      intro q v hv hunset
      refine (ih q (values.insert f.column v)).imp ?_ ?_
      · rintro ⟨g, hg, hmissing, hgenerated, herror⟩
        rw [Bool.eq_false_iff, ne_eq, Record.isSome_value?_insert hv, not_or] at hmissing
        exact ⟨g, List.mem_cons_of_mem f hg, Bool.eq_false_iff.2 hmissing.1, hgenerated, herror⟩
      · rintro ⟨after, record, hok, hset⟩
        refine ⟨after, record, hok, fun c => ?_⟩
        rw [hset, Record.isSome_value?_insert hv, List.map_cons, List.mem_cons, or_assoc]
    rw [fillIdentity]
    cases hset : (values.value? f.column).isSome with
    | true =>
      rw [if_pos rfl]
      refine (ih p values).imp ?_ ?_
      · rintro ⟨g, hg, hmissing⟩
        exact ⟨g, List.mem_cons_of_mem f hg, hmissing⟩
      · rintro ⟨q, record, hok, hrecord⟩
        refine ⟨q, record, hok, fun c => ?_⟩
        rw [hrecord, List.map_cons, List.mem_cons]
        refine ⟨fun h => h.imp_right .inr, ?_⟩
        rintro (h | rfl | h)
        · exact .inl h
        · exact .inl hset
        · exact .inr h
    | false =>
      rw [if_neg Bool.false_ne_true]
      cases hgenerated : f.generated with
      | false => exact .inl ⟨f, List.mem_cons_self, hset, hgenerated, if_pos rfl⟩
      | true =>
        rw [if_neg (by simp)]
        split
        · exact hassigned _ (fun h => by cases h) hset
        · exact hassigned _ (fun h => by cases h) hset

/-- What comes of a creation in the next slot. -/
theorem createRow_cases (hr : schema.resource? r.name = some r) (p : Progress) (values : Record) :
    (∃ f ∈ r.identityFields, (values.value? f.column).isSome = false ∧ f.generated = false ∧
      p.createRow schema p.created.length r.name values =
        .error (.conflict (.identityMissing r.name f.name))) ∨
    ∃ record i, r.identityOf? record = some i ∧
      (∀ c, (record.value? c).isSome = true ↔
        (values.value? c).isSome = true ∨ c ∈ r.identityFields.map Field.column) ∧
      ((p.tables.row? r.name i).isSome = true ∧
          p.createRow schema p.created.length r.name values =
            .error (.conflict (.alreadyExists r.name i.key)) ∨
        ∃ q, p.createRow schema p.created.length r.name values = .ok q ∧
          q.tables = p.tables.putRow r.name i.key record ∧
          q.touched = p.touched ++ [(r.name, i.key)] ∧ q.created = p.created ++ [i]) := by
  unfold createRow
  rw [Schema.require_eq_ok.2 hr]
  dsimp only [bind, Except.bind]
  rw [if_neg (not_not.2 rfl)]
  rcases fillIdentity_cases r r.identityFields p values with ⟨f, hf, hunset, hgenerated, herror⟩ |
    ⟨q, record, hok, hset⟩
  · rw [herror]
    exact .inl ⟨f, hf, hunset, hgenerated, rfl⟩
  · obtain ⟨htables, hcreated, -⟩ := fillIdentity_eq_ok hok
    obtain ⟨i, hi⟩ := Resource.exists_identityOf? fun f hf =>
      (hset f.column).2 (.inr (List.mem_map_of_mem hf))
    refine .inr ⟨record, i, hi, hset, ?_⟩
    rw [hok]
    dsimp only [bind, Except.bind]
    rw [hi]
    dsimp only
    rw [htables]
    cases htaken : (p.tables.row? r.name i).isSome with
    | true => exact .inl ⟨rfl, if_pos rfl⟩
    | false =>
      refine .inr ⟨_, if_neg Bool.false_ne_true, ?_, ?_, ?_⟩
      · exact congrArg (Tables.putRow · r.name i.key record) htables
      · exact congrArg (· ++ [(r.name, i.key)]) (touched_fillIdentity hok)
      · exact congrArg (· ++ [i]) hcreated

end Progress

end NestedResources
