import NestedResources.Proofs.Store.Exact
import NestedResources.Store.Commit

/-!
# What creations and updates do to tables

A creation files one row, with the identity that the store assigns where the values leave it open.
Values that differ from those of a row are written over it. Neither depends on the rest of the plan.
-/
namespace NestedResources

/-! ## Equality of documents -/

theorem Number.same_comm (m n : Number) : m.same n = n.same m := by
  cases m <;> cases n <;> simp [same, Binary64.equals, eq_comm]

theorem Number.same_refl (n : Number) : n.same n = true := by
  cases n <;> simp [same, Binary64.equals]

mutual

theorem Json.same_refl : ∀ a : Json, a.same a = true
  | .null => rfl
  | .bool b => by simp [same]
  | .num n => n.same_refl
  | .str s => by simp [same]
  | .arr xs => Json.sameItems_refl xs
  | .obj xs => Json.sameMembers_refl xs

theorem Json.sameItems_refl : ∀ xs : List Json, sameItems xs xs = true
  | [] => rfl
  | x :: xs => by simp [sameItems, Json.same_refl x, Json.sameItems_refl xs]

theorem Json.sameMembers_refl : ∀ xs : List (String × Json), sameMembers xs xs = true
  | [] => rfl
  | (k, x) :: xs => by simp [sameMembers, Json.same_refl x, Json.sameMembers_refl xs]

end

mutual

theorem Json.same_comm : ∀ a b : Json, a.same b = b.same a
  | .null, b => by cases b <;> simp [same]
  | .bool _, b => by cases b <;> simp [same, eq_comm]
  | .num m, b => by cases b <;> simp [same, m.same_comm]
  | .str _, b => by cases b <;> simp [same, eq_comm]
  | .arr xs, b => by
    cases b with
    | arr ys => simp only [same, Json.sameItems_comm xs ys]
    | _ => simp [same]
  | .obj xs, b => by
    cases b with
    | obj ys => simp only [same, Json.sameMembers_comm xs ys]
    | _ => simp [same]

theorem Json.sameItems_comm : ∀ xs ys : List Json, sameItems xs ys = sameItems ys xs
  | [], ys => by cases ys <;> simp [sameItems]
  | x :: xs, ys => by
    cases ys with
    | nil => simp [sameItems]
    | cons y ys => rw [sameItems, sameItems, Json.same_comm x y, Json.sameItems_comm xs ys]

theorem Json.sameMembers_comm : ∀ xs ys : List (String × Json), sameMembers xs ys = sameMembers ys xs
  | [], ys => by cases ys <;> simp [sameMembers]
  | (k, x) :: xs, ys => by
    cases ys with
    | nil => simp [sameMembers]
    | cons e ys =>
      obtain ⟨l, y⟩ := e
      rw [sameMembers, sameMembers, Json.same_comm x y, Json.sameMembers_comm xs ys, Bool.beq_comm]

end

/-- Rows that are equal as documents have equal values in every column. -/
theorem Json.sameMembers_get? {xs ys : List (String × Json)} (h : sameMembers xs ys = true)
    {key : String} {x : Json} (hx : Entries.get? key xs = some x) :
    ∃ y, Entries.get? key ys = some y ∧ x.same y = true := by
  induction xs generalizing ys with
  | nil => cases hx
  | cons e xs ih =>
    cases ys with
    | nil => cases h
    | cons d ys =>
      obtain ⟨k, a⟩ := e
      obtain ⟨l, b⟩ := d
      rw [sameMembers, Bool.and_eq_true, Bool.and_eq_true, beq_iff_eq] at h
      obtain ⟨⟨rfl, hsame⟩, hrest⟩ := h
      rw [Entries.get?] at hx ⊢
      split at hx
      · cases hx
        rename_i hkey
        exact ⟨b, if_pos hkey, hsame⟩
      · rename_i hkey
        rw [if_neg hkey]
        exact ih hrest hx

theorem Entries.get?_foldl_insert {α : Type} {new : List (String × α)} (hnew : Ordered new) (d : Dict α)
    (key : String) : (new.foldl (fun acc e => acc.insert e.1 e.2) d).get? key =
      (get? key new).or (d.get? key) := by
  induction new generalizing d with
  | nil => rfl
  | cons e rest ih =>
    obtain ⟨hfirst, hrest⟩ := List.pairwise_cons.1 hnew
    rw [List.foldl_cons, ih hrest, get?]
    by_cases hkey : e.1 = key
    · subst hkey
      have hnone : get? e.1 rest = none := by
        cases hfound : get? e.1 rest with
        | none => rfl
        | some v => exact absurd (hfirst _ (mem_of_get? hfound)) (String.lt_irrefl _)
      rw [hnone, Dict.get?_insert_self, if_pos rfl]
      rfl
    · rw [Dict.get?_insert_of_ne d (Ne.symm hkey), if_neg hkey]

/-- The values that are written come first. -/
theorem Dict.get?_union {α : Type} (d new : Dict α) (key : String) :
    (d.union new).get? key = (new.get? key).or (d.get? key) :=
  Entries.get?_foldl_insert new.ordered d key

namespace Progress

variable {schema : Schema} {r : Resource} {p q after : Progress} {values record : Record}

/-! ## Creating -/

theorem isExact_nextInteger (t : Tables) (resource column : String) :
    (Json.int (nextInteger t resource column)).isExact = true := by
  unfold nextInteger
  dsimp only
  generalize (_ : Int) + 1 = n
  have hlower := Int.le_bmod (x := n) (m := 0x10000000000000000) (by decide)
  have hupper := Int.bmod_lt (x := n) (m := 0x10000000000000000) (by decide)
  exact Json.isExact_int (by omega)

/-- Filling in an identity files no row, and what it fills in is exact. -/
theorem fillIdentity_eq_ok {fs : List Field} (h : fillIdentity r fs p values = .ok (q, record)) :
    q.tables = p.tables ∧ q.created = p.created ∧
      ∀ c v, record.get? c = some v → values.get? c = some v ∨ v.isExact = true := by
  induction fs generalizing p values with
  | nil =>
    cases h
    exact ⟨rfl, rfl, fun c v hv => .inl hv⟩
  | cons f fs ih =>
    have hfilled : ∀ {x : Json}, x.isExact = true → ∀ c v, (values.insert f.column x).get? c = some v →
        values.get? c = some v ∨ v.isExact = true := by
      intro x hx c v hv
      by_cases hc : c = f.column
      · subst hc
        rw [Dict.get?_insert_self] at hv
        cases hv
        exact .inr hx
      · rw [Dict.get?_insert_of_ne _ hc] at hv
        exact .inl hv
    unfold fillIdentity at h
    split at h
    · exact ih h
    · split at h
      · cases h
      · split at h
        · obtain ⟨htables, hcreated, hget⟩ := ih h
          exact ⟨htables, hcreated, fun c v hv => (hget c v hv).elim (hfilled (isExact_nextInteger ..) c v) .inr⟩
        · obtain ⟨htables, hcreated, hget⟩ := ih h
          exact ⟨htables, hcreated, fun c v hv => (hget c v hv).elim (hfilled rfl c v) .inr⟩

/-- What is filled in depends on the store only. -/
theorem fillIdentity_of_store {fs : List Field} {other : Progress} (hstore : other.store = p.store)
    (h : fillIdentity r fs p values = .ok (q, record)) :
    ∃ q', fillIdentity r fs other values = .ok (q', record) ∧ q'.store = q.store := by
  have htables : other.tables = p.tables := congrArg Store.tables hstore
  induction fs generalizing p other values with
  | nil =>
    cases h
    exact ⟨other, rfl, hstore⟩
  | cons f fs ih =>
    unfold fillIdentity at h ⊢
    split at h
    · rename_i hset
      rw [if_pos hset]
      exact ih hstore h htables
    · rename_i hset
      rw [if_neg hset]
      split at h
      · cases h
      · rename_i hgenerated
        rw [if_neg hgenerated]
        split at h
        · rename_i hinteger
          rw [if_pos hinteger, htables]
          exact ih hstore h htables
        · rename_i hinteger
          rw [if_neg hinteger, hstore]
          refine ih ?_ h ?_ <;> rfl

/-- Nothing is filled in if the identity is there. -/
theorem fillIdentity_of_set {fs : List Field}
    (h : ∀ f ∈ fs, (values.value? f.column).isSome = true) : fillIdentity r fs p values = .ok (p, values) := by
  induction fs with
  | nil => rfl
  | cons f fs ih =>
    rw [fillIdentity, if_pos (h f List.mem_cons_self)]
    exact ih fun g hg => h g (List.mem_cons_of_mem f hg)

theorem createRow_eq_ok {slot : Nat} {resource : String} (hr : schema.resource? resource = some r)
    (h : p.createRow schema slot resource values = .ok after) :
    ∃ q record i, slot = p.created.length ∧ fillIdentity r r.identityFields p values = .ok (q, record) ∧
      r.identityOf? record = some i ∧ p.tables.row? r.name i = none ∧
      after = { q.writeRow r.name i.key record with created := p.created ++ [i] } := by
  obtain ⟨r', hr', h⟩ := Except.bind_eq_ok.1 h
  cases hr.symm.trans (Schema.require_eq_ok.1 hr')
  dsimp only at h
  split at h
  · cases h
  · rename_i hslot
    obtain ⟨⟨q, record⟩, hfilled, h⟩ := Except.bind_eq_ok.1 h
    obtain ⟨htables, hcreated, -⟩ := fillIdentity_eq_ok hfilled
    dsimp only at h
    split at h
    · cases h
    · rename_i i hi
      split at h
      · cases h
      · rename_i hrow
        cases h
        rw [htables] at hrow
        refine ⟨q, record, i, not_not.1 hslot, hfilled, hi, ?_, ?_⟩
        · simpa using hrow
        · rw [← hcreated]
          rfl

/-- A row whose values have an identity is filed as it is, under a key that was free. -/
theorem createRow_named {slot : Nat} {i : Identity} (hr : schema.resource? r.name = some r)
    (hi : r.identityOf? values = some i) (h : p.createRow schema slot r.name values = .ok after) :
    slot = p.created.length ∧ p.tables.row? r.name i = none ∧
      after = { p.writeRow r.name i.key values with created := p.created ++ [i] } := by
  obtain ⟨q, record, j, hslot, hfilled, hj, hrow, rfl⟩ := createRow_eq_ok hr h
  have hset : ∀ f ∈ r.identityFields, (values.value? f.column).isSome = true := by
    intro f hf
    obtain ⟨v, hv⟩ := Except.exists_of_forall₂ (Resource.identityOf?_eq_some.1 hi) hf
    exact Option.isSome_of_eq_some hv
  cases (fillIdentity_of_set hset).symm.trans hfilled
  cases hi.symm.trans hj
  exact ⟨hslot, hrow, rfl⟩

/-- Two plans on one store create the same row, each in its next slot. -/
theorem createRow_agrees {other done : Progress} {slot slot' : Nat} {resource : String}
    (hr : schema.resource? resource = some r) (hstore : other.store = p.store)
    (h : p.createRow schema slot resource values = .ok after)
    (hother : other.createRow schema slot' resource values = .ok done) :
    done.store = after.store ∧ slot = p.created.length ∧ slot' = other.created.length ∧
      ∃ i, after.created = p.created ++ [i] ∧ done.created = other.created ++ [i] := by
  obtain ⟨q, record, i, hslot, hfilled, hi, -, rfl⟩ := createRow_eq_ok hr h
  obtain ⟨q', record', i', hslot', hfilled', hi', -, rfl⟩ := createRow_eq_ok hr hother
  obtain ⟨q'', hagain, hq⟩ := fillIdentity_of_store hstore hfilled
  cases hagain.symm.trans hfilled'
  cases hi.symm.trans hi'
  refine ⟨?_, hslot, hslot', i, rfl, rfl⟩
  simp only [writeRow, withTables, tables, hq]

/-- The next slot stands for what is created next. -/
theorem resolve_next {i : Identity} (hcreated : q.created = p.created ++ [i]) :
    q.resolve (.pending p.created.length) = .ok i := by
  unfold resolve
  dsimp only
  rw [hcreated, List.getElem?_concat_length]

/-- What a reference stands for stays when another entity is created. -/
theorem resolve_created {i j : Identity} {ref : EntityRef} (hcreated : q.created = p.created ++ [i])
    (h : p.resolve ref = .ok j) : q.resolve ref = .ok j := by
  cases ref with
  | existing k => exact h
  | pending slot =>
    unfold resolve at h ⊢
    dsimp only at h ⊢
    split at h
    · rename_i k hk
      obtain ⟨hslot, -⟩ := List.getElem?_eq_some_iff.1 hk
      rw [hcreated, List.getElem?_append_left hslot, hk]
      exact h
    · cases h

/-! ## Updating -/

/-- An update leaves everything as it is, or writes its values over those of the row, which keeps its
key. -/
theorem updateRow_cases {resource : String} {target : EntityRef}
    (hr : schema.resource? resource = some r)
    (h : p.updateRow schema resource target values = .ok after) :
    ∃ i record, p.resolve target = .ok i ∧ p.tables.row? r.name i = some record ∧ (after = p ∨
      (r.identityOf? (record.union values)).map Identity.key = some i.key ∧
        after = p.writeRow r.name i.key (record.union values)) := by
  obtain ⟨r', hr', h₁⟩ := Except.bind_eq_ok.1 h
  cases hr.symm.trans (Schema.require_eq_ok.1 hr')
  obtain ⟨i, hi, h₂⟩ := Except.bind_eq_ok.1 h₁
  dsimp only at h₂
  split at h₂
  · cases h₂
  · rename_i record hrow
    refine ⟨i, record, hi, hrow, ?_⟩
    split at h₂
    · cases h₂
      exact .inl rfl
    · split at h₂
      · cases h₂
      · rename_i hkey
        cases h₂
        exact .inr ⟨not_not.1 hkey, rfl⟩

/-- Values that differ from those of a row are written over it. -/
theorem updateRow_eq_ok {resource : String} {target : EntityRef} {i : Identity}
    (hr : schema.resource? resource = some r) (hi : p.resolve target = .ok i)
    (hrow : p.tables.row? r.name i = some record) (hchange : Record.same (record.union values) record = false)
    (h : p.updateRow schema resource target values = .ok after) :
    after = p.writeRow r.name i.key (record.union values) := by
  obtain ⟨r', hr', h₁⟩ := Except.bind_eq_ok.1 h
  cases hr.symm.trans (Schema.require_eq_ok.1 hr')
  obtain ⟨i', hi', h₂⟩ := Except.bind_eq_ok.1 h₁
  cases hi.symm.trans hi'
  simp only [hrow] at h₂
  rw [hchange, if_neg Bool.false_ne_true] at h₂
  split at h₂
  · cases h₂
  · cases h₂
    rfl

end Progress

end NestedResources
