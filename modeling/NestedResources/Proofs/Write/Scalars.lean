import NestedResources.Proofs.Store.Rewrite
import NestedResources.Proofs.Write.Visits

/-!
# Documents that write scalars

A document that leaves relationships alone and deletes nothing plans at most one command. Which values
it writes depends on the stored row only, and not on what else the walk knows (`WalkSite.visit_scalars`).
-/
namespace NestedResources

/-! ## Values of fields -/

namespace Field

variable {f : Field} {path : String} {raw v : Json}

/-- Whether a value passes does not depend on where it stands. -/
theorem check_of_path (h : f.check path raw = .ok v) (other : String) : f.check other raw = .ok v := by
  unfold check at h ⊢
  split at h
  · rename_i hnull
    rw [if_pos hnull]
    split at h
    · rename_i hoptional
      rw [if_pos hoptional]
      exact h
    · cases h
  · rename_i hnull
    rw [if_neg hnull]
    split at h
    · cases h
    · split at h
      · exact h
      · cases h

/-- A value that does not pass is an issue. -/
theorem ne_nil_of_check {found : List Issue} (h : f.check path raw = .error found) : found ≠ [] := by
  unfold check at h
  split at h
  · split at h
    · cases h
    · cases h
      exact List.cons_ne_nil _ _
  · split at h
    · cases h
      exact List.cons_ne_nil _ _
    · split at h
      · cases h
      · rename_i hne
        cases h
        exact fun hnil => hne (List.map_eq_nil_iff.1 hnil)

/-- A value that passes is the coerced one. -/
theorem coerce_of_check (hraw : raw ≠ .null) (h : f.check path raw = .ok v) : f.type.coerce raw = .ok v := by
  unfold check at h
  split at h
  · rename_i hnull
    cases raw <;> first | exact absurd rfl hraw | cases hnull
  · split at h
    · cases h
    · rename_i hcoerce
      split at h
      · cases h
        exact hcoerce
      · cases h

/-- What is written over a value is another one. -/
theorem same_of_not_isUnchanged {stored : Option Json} (h : f.isUnchanged stored v = false) :
    ∀ old, stored = some old → v.same old = false := by
  rintro old rfl
  cases old with
  | null => cases v <;> first | rfl | cases h
  | _ => exact (Json.same_comm ..).trans (Bool.or_eq_false_iff.1 h).1

end Field

/-! ## Values of documents -/

namespace Resource

/-- Reads one field of a document over a stored row, if there is one. An issue gives nothing. -/
def readValue? (r : Resource) (stored : Option Record) (values : Record) (key : String) (raw : Json) :
    Option Record := do
  let f ← r.field? key
  let value ← (f.check key raw).toOption
  if stored.any fun record => f.isUnchanged (record.get? f.column) value then some values
  else if r.isIdentity f.name && stored.isSome then none
  else if f.readOnly && !r.isIdentity f.name then none
  else some (values.insert f.column value)

/-- Whether a member of a document is no field. -/
def Skips (r : Resource) (key : String) : Prop :=
  key = DocumentOp.key ∨ key = selfKey ∨ (r.relationship? key).isSome

instance (r : Resource) (key : String) : Decidable (r.Skips key) :=
  inferInstanceAs (Decidable (_ ∨ _))

/-- Reads one member of a document, which changes nothing if it is no field. -/
def readMember? (r : Resource) (stored : Option Record) (values : Record) :
    String × Json → Option Record
  | (key, raw) => if r.Skips key then some values else r.readValue? stored values key raw

/-- The values that the fields of a document write. -/
def values? (r : Resource) (stored : Option Record) (members : List (String × Json)) : Option Record :=
  members.foldlM (r.readMember? stored) .empty

variable {r : Resource} {stored : Option Record} {values next start : Record} {key : String} {raw : Json}
  {members : List (String × Json)}

/-- What reading a field does: nothing, or it puts a value that has passed into its column. -/
theorem readValue?_eq_some (h : r.readValue? stored values key raw = some next) :
    ∃ f value, r.field? key = some f ∧ f.check key raw = .ok value ∧
      ((next = values ∧ ∃ record, stored = some record ∧ f.isUnchanged (record.get? f.column) value = true) ∨
        (next = values.insert f.column value ∧ ∀ record, stored = some record →
          f.isUnchanged (record.get? f.column) value = false ∧ r.isIdentity f.name = false)) := by
  obtain ⟨f, hf, h₁⟩ := Option.bind_eq_some_iff.1 h
  obtain ⟨value, hvalue, h₂⟩ := Option.bind_eq_some_iff.1 h₁
  have hcheck : f.check key raw = .ok value := by
    cases hresult : f.check key raw with
    | error found =>
      rw [hresult] at hvalue
      cases hvalue
    | ok v =>
      rw [hresult] at hvalue
      cases hvalue
      rfl
  refine ⟨f, value, hf, hcheck, ?_⟩
  split at h₂
  · rename_i hunchanged
    cases h₂
    cases stored with
    | none => cases hunchanged
    | some record => exact .inl ⟨rfl, record, rfl, hunchanged⟩
  · rename_i hchanged
    split at h₂
    · cases h₂
    · rename_i hidentity
      split at h₂
      · cases h₂
      · cases h₂
        refine .inr ⟨rfl, fun record hrecord => ?_⟩
        subst hrecord
        simpa using And.intro hchanged hidentity

/-- What every field that is read keeps, a document keeps. -/
theorem readMembers_induction {p : Record → Prop} (hstart : p start)
    (hread : ∀ values next key raw, (key, raw) ∈ members → ¬r.Skips key → p values →
      r.readValue? stored values key raw = some next → p next)
    (h : members.foldlM (r.readMember? stored) start = some values) : p values := by
  induction members generalizing start with
  | nil =>
    cases h
    exact hstart
  | cons m members ih =>
    obtain ⟨key, raw⟩ := m
    rw [List.foldlM_cons] at h
    obtain ⟨between, hfirst, hrest⟩ := Option.bind_eq_some_iff.1 h
    refine ih ?_ (fun values next key raw hmem => hread values next key raw (List.mem_cons_of_mem _ hmem))
      hrest
    by_cases hskips : r.Skips key
    · rw [readMember?, if_pos hskips] at hfirst
      cases hfirst
      exact hstart
    · rw [readMember?, if_neg hskips] at hfirst
      exact hread start between key raw List.mem_cons_self hskips hstart hfirst

/-- Every value comes from a field of the document. Over a stored row it is a new one, and not of an
identity field. -/
theorem exists_field_of_values? (h : r.values? stored members = some values) {c : String} {v : Json}
    (hv : values.get? c = some v) :
    ∃ f key raw, r.field? key = some f ∧ f.column = c ∧ f.check key raw = .ok v ∧
      ∀ record, stored = some record →
        f.isUnchanged (record.get? c) v = false ∧ r.isIdentity f.name = false := by
  revert hv
  refine readMembers_induction (p := fun values => values.get? c = some v → ∃ f key raw,
    r.field? key = some f ∧ f.column = c ∧ f.check key raw = .ok v ∧ ∀ record, stored = some record →
      f.isUnchanged (record.get? c) v = false ∧ r.isIdentity f.name = false) (fun hv => by cases hv) ?_ h
  intro before next key raw _ _ ih hread hv
  obtain ⟨f, value, hf, hcheck, ⟨rfl, -⟩ | ⟨rfl, hnew⟩⟩ := readValue?_eq_some hread
  · exact ih hv
  · by_cases hc : c = f.column
    · subst hc
      rw [Dict.get?_insert_self] at hv
      cases hv
      exact ⟨f, key, raw, hf, rfl, hcheck, hnew⟩
    · rw [Dict.get?_insert_of_ne _ hc] at hv
      exact ih hv

/-- Values that are written over a row change it. -/
theorem same_union_of_values? {record : Record} (h : r.values? (some record) members = some values)
    (hvalues : values.isEmpty = false) : Record.same (record.union values) record = false := by
  rw [Bool.eq_false_iff]
  intro hsame
  obtain ⟨c, v, hv⟩ : ∃ c v, values.get? c = some v := by
    cases hentries : values.entries with
    | nil => simp [Dict.isEmpty, hentries] at hvalues
    | cons e rest => exact ⟨e.1, e.2, Dict.get?_eq_some_iff.2 (hentries ▸ List.mem_cons_self)⟩
  have hnext : (record.union values).get? c = some v := by rw [Dict.get?_union, hv, Option.some_or]
  obtain ⟨old, hold, hequal⟩ := Json.sameMembers_get? hsame hnext
  obtain ⟨f, key, raw, -, -, -, hnew⟩ := exists_field_of_values? h hv
  rw [Field.same_of_not_isUnchanged (hnew record rfl).1 old hold] at hequal
  cases hequal

/-! ## Identities -/

/-- Identity fields that are read from documents, with exact values in columns of their own. -/
structure NamesExactly (r : Resource) : Prop where
  exact : ∀ f ∈ r.identityFields, f.type.isExact = true
  own : ∀ f ∈ r.identityFields, ∀ g ∈ r.fields, g.column = f.column → g = f
  read : ∀ f ∈ r.identityFields, ¬r.Skips f.name

theorem field?_of_mem_identityFields {f : Field} (h : f ∈ r.identityFields) :
    r.field? f.name = some f ∧ r.isIdentity f.name = true := by
  obtain ⟨name, hname, hf⟩ := List.mem_filterMap.1 h
  have heq : f.name = name := by simpa using List.find?_some hf
  subst heq
  exact ⟨hf, decide_eq_true hname⟩

/-- A field that a document does not have leaves its own column as it is. -/
theorem get?_of_not_mem {f : Field} (hown : ∀ g ∈ r.fields, g.column = f.column → g = f)
    (hmembers : ∀ m ∈ members, m.1 ≠ f.name)
    (h : members.foldlM (r.readMember? stored) start = some values) :
    values.get? f.column = start.get? f.column := by
  refine readMembers_induction (p := fun values => values.get? f.column = start.get? f.column) rfl ?_ h
  intro before next key raw hmem _ ih hread
  obtain ⟨g, value, hg, -, ⟨rfl, -⟩ | ⟨rfl, -⟩⟩ := readValue?_eq_some hread
  · exact ih
  · have hkey : g.name = key := by simpa using List.find?_some hg
    have hcolumn : f.column ≠ g.column := by
      intro hcolumn
      obtain rfl := hown g (List.mem_of_find?_eq_some hg) hcolumn.symm
      exact hmembers _ hmem hkey.symm
    rw [Dict.get?_insert_of_ne _ hcolumn, ih]

/-- A field of a document has a value that passes. It is written into the column of the field, unless the
stored row has it. -/
theorem written_of_mem {f : Field} (hf : r.field? f.name = some f) (hread : ¬r.Skips f.name)
    (hown : ∀ g ∈ r.fields, g.column = f.column → g = f) (hnodup : (members.map (·.1)).Nodup)
    (hmem : (f.name, raw) ∈ members)
    (h : members.foldlM (r.readMember? stored) start = some values) :
    ∃ v, f.check f.name raw = .ok v ∧ (values.get? f.column = some v ∨
      (values.get? f.column = start.get? f.column ∧ ∃ record, stored = some record ∧
        f.isUnchanged (record.get? f.column) v = true)) := by
  induction members generalizing start with
  | nil => cases hmem
  | cons m members ih =>
    obtain ⟨hnew, hnodup⟩ := List.nodup_cons.1 hnodup
    rw [List.foldlM_cons] at h
    obtain ⟨between, hfirst, hrest⟩ := Option.bind_eq_some_iff.1 h
    rcases List.mem_cons.1 hmem with rfl | hmem
    · have hkept := get?_of_not_mem hown (fun m hm hname => hnew (List.mem_map.2 ⟨m, hm, hname⟩)) hrest
      rw [readMember?, if_neg hread] at hfirst
      obtain ⟨g, v, hg, hcheck, hwritten⟩ := readValue?_eq_some hfirst
      cases hf.symm.trans hg
      rw [hkept]
      refine ⟨v, hcheck, ?_⟩
      rcases hwritten with ⟨rfl, hunchanged⟩ | ⟨rfl, -⟩
      · exact .inr ⟨rfl, hunchanged⟩
      · exact .inl (Dict.get?_insert_self ..)
    · obtain ⟨v, hcheck, hwritten⟩ := ih hnodup hmem hrest
      refine ⟨v, hcheck, hwritten.imp_right ?_⟩
      rintro ⟨hkept, hunchanged⟩
      have hother : ∀ x ∈ [m], x.1 ≠ f.name := by
        intro x hx hname
        rw [List.mem_singleton.1 hx] at hname
        exact hnew (List.mem_map.2 ⟨_, hmem, hname.symm⟩)
      have hfirst' : [m].foldlM (r.readMember? stored) start = some between := by
        rw [List.foldlM_cons, hfirst]
        rfl
      exact ⟨hkept.trans (get?_of_not_mem hown hother hfirst'), hunchanged⟩

/-- A new entity gets the values of its identity fields. -/
theorem get?_of_mem {f : Field} (hf : r.field? f.name = some f) (hread : ¬r.Skips f.name)
    (hown : ∀ g ∈ r.fields, g.column = f.column → g = f) (hnodup : (members.map (·.1)).Nodup)
    (hmem : (f.name, raw) ∈ members)
    (h : members.foldlM (r.readMember? none) start = some values) :
    ∃ v, f.check f.name raw = .ok v ∧ values.get? f.column = some v := by
  obtain ⟨v, hcheck, hv | ⟨-, _, hstored, -⟩⟩ := written_of_mem hf hread hown hnodup hmem h
  · exact ⟨v, hcheck, hv⟩
  · cases hstored

/-- A new entity gets the identity that its document names. -/
theorem NamesExactly.identityOf?_values (hr : r.NamesExactly) (hnodup : (members.map (·.1)).Nodup)
    (h : r.values? none members = some values) {i : Identity} (hi : r.identityIn? members = some i) :
    r.identityOf? values = some i := by
  have hvalues := (List.forall₂_and_left _ _).2 ⟨fun f hf => hf, identityIn?_eq_some hi⟩
  refine identityOf?_eq_some.2 (hvalues.imp ?_)
  rintro f v ⟨hf, raw, hmem, hraw, hcoerce⟩
  obtain ⟨w, hcheck, hw⟩ := get?_of_mem (field?_of_mem_identityFields hf).1 (hr.read f hf)
    (hr.own f hf) hnodup (Entries.mem_of_get? hmem) h
  cases hcoerce.symm.trans (Field.coerce_of_check hraw hcheck)
  refine Record.value?_of_get? hw fun hnull => ?_
  have hexact := FieldType.isExact_of_coerce (hr.exact f hf) hraw hcoerce
  rw [hnull] at hexact
  cases hexact

/-- The identity columns of what a document writes have exact values, or none. -/
theorem NamesExactly.isExact_of_values? (hr : r.NamesExactly)
    (h : r.values? none members = some values) {f : Field} (hf : f ∈ r.identityFields) {v : Json}
    (hv : values.value? f.column = some v) : v.isExact = true := by
  obtain ⟨g, key, raw, hg, hcolumn, hcheck, -⟩ := exists_field_of_values? h (Record.get?_of_value? hv)
  obtain rfl := hr.own f hf g (List.mem_of_find?_eq_some hg) hcolumn
  have hraw : raw ≠ .null := by
    rintro rfl
    rw [Field.check, if_pos (show Json.null.isNull = true from rfl)] at hcheck
    split at hcheck
    · cases hcheck
      exact Record.value?_ne_null hv rfl
    · cases hcheck
  exact FieldType.isExact_of_coerce (hr.exact g hf) hraw (Field.coerce_of_check hraw hcheck)

/-- What is written over a row leaves its identity as it is. -/
theorem NamesExactly.identityOf?_union (hr : r.NamesExactly) {record : Record}
    (h : r.values? (some record) members = some values) :
    r.identityOf? (record.union values) = r.identityOf? record := by
  refine identityOf?_congr fun c hc => ?_
  obtain ⟨f, hf, rfl⟩ := List.mem_map.1 hc
  have hnone : values.get? f.column = none := by
    cases hv : values.get? f.column with
    | none => rfl
    | some v =>
      obtain ⟨g, key, raw, hg, hcolumn, -, hnew⟩ := exists_field_of_values? h hv
      obtain rfl := hr.own f hf g (List.mem_of_find?_eq_some hg) hcolumn
      rw [(field?_of_mem_identityFields hf).2] at hnew
      cases (hnew record rfl).2
  rw [Dict.get?_union, hnone, Option.none_or]

/-- A creation files its row under an exact identity. -/
theorem NamesExactly.files (hnames : r.NamesExactly) {schema : Schema}
    (hr : schema.resource? r.name = some r) (hvalues : r.values? none members = some values)
    {p q : Progress} {slot : Nat} (h : p.createRow schema slot r.name values = .ok q) :
    ∃ record i, r.identityOf? record = some i ∧ i.IsExact ∧ p.tables.row? r.name i = none ∧
      q.tables = p.tables.putRow r.name i.key record ∧ q.created = p.created ++ [i] := by
  obtain ⟨filled, record, i, -, hfilled, hi, hrow, rfl⟩ := Progress.createRow_eq_ok hr h
  obtain ⟨htables, -, hget⟩ := Progress.fillIdentity_eq_ok hfilled
  refine ⟨record, i, hi, fun v hv => ?_, hrow, congrArg (Tables.putRow · r.name i.key record) htables, rfl⟩
  have hfields := (List.forall₂_and_left _ _).2 ⟨fun f hf => hf, identityOf?_eq_some.1 hi⟩
  obtain ⟨f, hf, hvalue⟩ := Except.exists_of_forall₂ hfields.flip hv
  rcases hget f.column v (Record.get?_of_value? hvalue) with hold | hexact
  · exact hnames.isExact_of_values? hvalues hf (Record.value?_of_get? hold (Record.value?_ne_null hvalue))
  · exact hexact

end Resource

/-! ## Walks without issues -/

namespace WalkSite

open Walking

variable {site : WalkSite} {w after : Walk}

theorem Asked.clean {qs : List Question} (h : site.Asked qs w after) (hafter : after.issues = []) :
    w.issues = [] := by
  obtain ⟨-, found, rfl⟩ := h
  exact (List.append_eq_nil_iff.1 hafter).1

theorem ne_nil_of_issue {α : Type} {path : String} {d : Defect} {a b : α}
    (h : (do issue path d; pure a : Walking α).run.run w = (.ok b, after)) : after.issues ≠ [] := by
  cases h
  exact fun hnil => List.cons_ne_nil _ _ (List.append_eq_nil_iff.1 hnil).2

/-- Reading a field without an issue does what the stored row and the document say. -/
theorem readValue?_of_readField {s : Scope} {values next : Record} {key : String} {raw : Json}
    (h : (site.readField s values key raw).run.run w = (.ok next, after)) (hclean : after.issues = []) :
    s.resource.readValue? (s.known.map Known.record) values key raw = some next := by
  unfold readField at h
  unfold Resource.readValue?
  dsimp only at h
  split at h
  · exact absurd hclean (ne_nil_of_issue h)
  · rename_i f hf
    rw [hf, Option.bind_eq_bind, Option.bind_some]
    split at h
    · rename_i found hcheck
      obtain ⟨_, _, hissue, h₁⟩ := bind_eq_ok h
      cases hissue
      cases h₁
      exact absurd (List.append_eq_nil_iff.1 hclean).2 (Field.ne_nil_of_check hcheck)
    · rename_i value hcheck
      rw [Field.check_of_path hcheck key, Except.toOption, Option.bind_eq_bind, Option.bind_some,
        Option.any_map, Option.isSome_map]
      split at h
      · rename_i hunchanged
        cases h
        exact if_pos hunchanged
      · rename_i hchanged
        refine (if_neg hchanged).trans ?_
        split at h
        · exact absurd hclean (ne_nil_of_issue h)
        · rename_i hidentity
          have hstored : (s.resource.isIdentity f.name && s.known.isSome) = false := by
            simpa [Scope.creating] using hidentity
          rw [hstored, if_neg Bool.false_ne_true]
          split at h
          · exact absurd hclean (ne_nil_of_issue h)
          · rename_i hwritable
            obtain ⟨_, _, -, h₁⟩ := bind_eq_ok h
            cases h₁
            exact if_neg hwritable

/-- Reading the fields of a document without an issue does what the stored row and the document say. -/
theorem values?_of_readFields {s : Scope} {members : List (String × Json)} {values : Record}
    (h : (site.readFields s members).run.run w = (.ok values, after)) (hclean : after.issues = []) :
    s.resource.values? (s.known.map Known.record) members = some values := by
  unfold readFields at h
  unfold Resource.values?
  generalize Dict.empty = start at h ⊢
  induction members generalizing start w with
  | nil =>
    cases h
    rfl
  | cons m members ih =>
    rw [List.foldlM_cons] at h ⊢
    obtain ⟨next, between, hread, hrest⟩ := bind_eq_ok h
    obtain ⟨qs, hasked, -⟩ := foldFields_eq_ok hrest
    obtain ⟨key, raw⟩ := m
    refine Option.bind_eq_some_iff.2 ⟨next, ?_, ih next hrest⟩
    dsimp only at hread
    split at hread
    · rename_i hskips
      cases hread
      exact if_pos hskips
    · rename_i hskips
      exact (if_neg hskips).trans (readValue?_of_readField hread (hasked.clean hclean))

/-! ## Objects -/

/-- The command that is planned for the entity of an object, if there is anything to write. -/
def placed (r : Resource) (slot : Nat) (values : Record) : Option Known → List Command
  | none => [.create slot r.name values]
  | some k => if values.isEmpty then [] else [.update r.name k.reference values]

/-- What is known of the entity of an object once it is written. -/
def learnt (r : Resource) (slot : Nat) (values : Record) (identity : Option Identity) :
    Option Known → List ((String × String) × Known)
  | none => (identity.map fun i => ((r.name, i.key), ⟨.pending slot, values, true⟩)).toList
  | some k => if values.isEmpty then []
    else (identity.map fun i => ((r.name, i.key), { k with record := k.record.union values })).toList

/-- A walk that has written the entity of an object and has done nothing else. -/
structure Places (r : Resource) (identity : Option Identity) (known : Option Known) (values : Record)
    (w after : Walk) : Prop where
  commands : after.plan.commands = w.plan.commands ++ placed r w.plan.pending values known
  known : after.known = learnt r w.plan.pending values identity known ++ w.known
  issues : after.issues = w.issues

theorem places_of_place {s : Scope} {members : List (String × Json)} {values : Record}
    {reference : EntityRef}
    (h : (site.place s members values).run.run w = (.ok reference, after)) :
    Places s.resource s.identity s.known values w after := by
  cases placing_of_place h with
  | create hnew _ =>
    rw [hnew]
    exact ⟨rfl, rfl, rfl⟩
  | update hold hvalues _ =>
    rw [hold]
    exact ⟨by simp [placed, hvalues, planned, noted, Plan.push],
      by simp [learnt, hvalues, planned, noted], rfl⟩
  | keep hold hvalues =>
    rw [hold]
    exact ⟨by simp [placed, hvalues], by simp [learnt, hvalues], rfl⟩

end WalkSite

/-- The relationship that a walk goes over at a member of a document. -/
def Resource.walked? (r : Resource) (key : String) : Option Relationship :=
  if key = DocumentOp.key ∨ key = selfKey then none else r.relationship? key

theorem Resource.relationship?_of_walked? {r : Resource} {key : String} {rel : Relationship}
    (h : r.walked? key = some rel) : r.relationship? key = some rel := by
  unfold walked? at h
  split at h
  · cases h
  · exact h

/-- The members of a document that writes scalars: relationships are only mentioned by links, and the
entity stays. -/
structure Resource.WritesScalars (r : Resource) (members : List (String × Json)) : Prop where
  nodup : (members.map (·.1)).Nodup
  keeps : Entries.get? DocumentOp.key members ≠ some (.str "remove")
  apart : ∀ m ∈ members, (r.relationship? m.1).isSome = true → m.2.isString = true

theorem Resource.WritesScalars.walked {r : Resource} {members : List (String × Json)}
    (h : r.WritesScalars members) : ∀ m ∈ members, ∀ rel, r.walked? m.1 = some rel → m.2.isString = true :=
  fun m hm _ hrel => h.apart m hm (Option.isSome_of_eq_some (Resource.relationship?_of_walked? hrel))

namespace WalkSite

open Walking

variable {site : WalkSite} {w after : Walk} {r : Resource} {path : String}
  {members : List (String × Json)}

/-- An entity that the walk has not met is looked up in the tables. The row that is found has the very
identity that was asked for. -/
theorem lookup_unmet (hr : site.registry.schema.resource? r.name = some r) (hnames : r.NamesExactly)
    (hfiled : site.tables.FiledExactly r) {document : List (String × Json)} {i : Identity}
    (hi : r.identityIn? document = some i) (hnew : firstOf? (r.name, i.key) w.known = none)
    {known : Option Known} (h : (site.lookup r i).run.run w = (.ok known, after)) :
    (∃ record, known = some ⟨.existing i, record, false⟩ ∧ site.tables.row? r.name i = some record ∧
        after = { w with known := ((r.name, i.key), ⟨.existing i, record, false⟩) :: w.known }) ∨
      (known = none ∧ after = w) := by
  cases looksUp_of_lookup hr h with
  | met hmet => cases hnew.symm.trans hmet
  | @row required record _ hrequired hmem hidentity hpasses =>
    obtain ⟨key, hkey⟩ := Tables.mem_rowsOf.1 hmem
    obtain ⟨j, hj, rfl, hjexact⟩ := hfiled key record hkey
    obtain ⟨hexact, hlength⟩ := Resource.isExact_of_identityIn? hnames.exact hi
    obtain rfl := (Predicate.passes_identity_iff hnames.exact hj hjexact hexact hlength).1 hidentity
    rw [hj]
    exact .inl ⟨record, rfl, hkey, rfl⟩
  | missing _ => exact .inr ⟨rfl, rfl⟩

/-- What is no object is an issue. -/
theorem exists_members_of_visit {position : Position} {mode : WriteMode} {item : Json}
    {visited : Option Visited} (h : (site.visit r path position mode item).run.run w = (.ok visited, after))
    (hclean : after.issues = []) : ∃ members, item = .obj members := by
  cases item with
  | obj members => exact ⟨members, rfl⟩
  | _ =>
    rw [visit] at h
    · exact absurd hclean (ne_nil_of_issue h)
    · intro members hitem
      cases hitem

theorem ne_remove_of_keeps {op : Option DocumentOp}
    (hkeeps : Entries.get? DocumentOp.key members ≠ some (.str "remove"))
    (h : DocumentOp.ofMembers? members = .ok op) : op ≠ some .remove := by
  rintro rfl
  unfold DocumentOp.ofMembers? at h
  split at h
  · cases h
  · rename_i value hvalue
    obtain ⟨op, hread, hop⟩ := Except.map_eq_ok.1 h
    cases hop
    unfold DocumentOp.read at hread
    split at hread
    · split at hread
      · cases hread
      · split at hread
        · cases hread
        · split at hread
          · rename_i htext
            exact hkeeps (htext ▸ hvalue)
          · cases hread
    · cases hread

/-- The entity of an object of a collection is written, unless it is removed. -/
theorem entered_of_stays {op : Option DocumentOp} {identity : Option Identity} {known : Option Known}
    {opened : Opened} (hstays : op ≠ some .remove)
    (h : (match known with
      | none =>
        if op = some .update ∨ op = some .remove ∨ (Position.root .collection).identity?.isSome = true then
          match identity with
          | some i => throw (.notFound r.name i.key)
          | none => throw (.badRequest (.identityNeeded r.name (pathOrRoot path)))
        else pure (.entered op identity none)
      | some k =>
        if op = some .remove then do
          site.planDelete r k
          pure (.settled (some ⟨k.reference, true⟩))
        else pure (.entered op identity (some k)) : Walking Opened).run.run w = (.ok opened, after)) :
    opened = .entered op identity known ∧ after = w := by
  cases known with
  | none =>
    dsimp only at h
    split at h
    · split at h
      · cases h
      · cases h
    · cases h
      exact ⟨rfl, rfl⟩
  | some k =>
    dsimp only at h
    rw [if_neg hstays] at h
    cases h
    exact ⟨rfl, rfl⟩

/-- An object of a collection that keeps its entity is entered with what is found for its identity. -/
theorem finds_of_openObject {opened : Opened}
    (hkeeps : Entries.get? DocumentOp.key members ≠ some (.str "remove"))
    (h : (site.openObject r path (.root .collection) members).run.run w = (.ok opened, after)) :
    ∃ op known, opened = .entered op (r.identityIn? members) known ∧
      site.Finds r (r.identityIn? members) w known after := by
  obtain ⟨op, _, hop, h₁⟩ := bind_eq_ok h
  obtain ⟨hread, rfl⟩ := liftM_eq_ok hop
  have hstays := ne_remove_of_keeps hkeeps hread
  obtain ⟨identity, _, hidentity, h₂⟩ := bind_eq_ok h₁
  cases hidentity
  dsimp only at h₂
  obtain ⟨known, between, hfinds, h₃⟩ := finds_of_identity h₂
  obtain ⟨rfl, rfl⟩ := entered_of_stays hstays h₃
  exact ⟨op, known, rfl, hfinds⟩

/-- Relationships that are only mentioned by links are left alone. -/
theorem eq_of_visitRelationships {s : Scope} {reference : EntityRef} {mode : WriteMode} {u : Unit}
    (hapart : ∀ m ∈ members, ∀ rel, s.resource.walked? m.1 = some rel → m.2.isString = true)
    (h : (site.visitRelationships s reference mode members).run.run w = (.ok u, after)) : after = w := by
  induction members with
  | nil =>
    rw [visitRelationships] at h
    cases h
    rfl
  | cons m members ih =>
    obtain ⟨key, raw⟩ := m
    rw [visitRelationships] at h
    have hrest := ih fun m hm => hapart m (List.mem_cons_of_mem _ hm)
    dsimp only at h
    split at h
    · exact hrest h
    · rename_i hskips
      split at h
      · exact hrest h
      · rename_i rel hrel
        rw [if_pos (hapart (key, raw) List.mem_cons_self rel ((if_neg hskips).trans hrel))] at h
        exact hrest h

/-- A document that writes scalars finds its entity, reads its values against the stored row, and
writes it. -/
theorem visit_scalars {visited : Option Visited} (hscalars : r.WritesScalars members)
    (h : (site.visit r path (.root .collection) .patch (.obj members)).run.run w = (.ok visited, after))
    (hclean : after.issues = []) :
    ∃ known found values between, site.Finds r (r.identityIn? members) w known found ∧
      r.values? (known.map Known.record) members = some values ∧
      between.plan = found.plan ∧ between.known = found.known ∧
      Places r (r.identityIn? members) known values between after := by
  rw [visit] at h
  obtain ⟨opened, found, hopen, h₁⟩ := bind_eq_ok h
  obtain ⟨op, known, rfl, hfinds⟩ := finds_of_openObject hscalars.keeps hopen
  obtain ⟨values, read, hread, h₂⟩ := bind_eq_ok h₁
  obtain ⟨qs, hasked, -⟩ := readFields_eq_ok hread
  have hwritten : ∀ {between : Walk}, site.Asked qs found between → (do
      let reference ← site.place ⟨r, path, .root .collection, r.identityIn? members, known⟩ members values
      site.attach ⟨r, path, .root .collection, r.identityIn? members, known⟩ op members reference
      site.visitRelationships ⟨r, path, .root .collection, r.identityIn? members, known⟩ reference .patch
        members
      pure (some ⟨reference, false⟩) : Walking (Option Visited)).run.run between = (.ok visited, after) →
        (between.issues = [] → read.issues = []) → ∃ between, r.values? (known.map Known.record) members
          = some values ∧ between.plan = found.plan ∧ between.known = found.known ∧
            Places r (r.identityIn? members) known values between after := by
    intro between hbetween h hissues
    obtain ⟨reference, placed, hplace, h₃⟩ := bind_eq_ok h
    obtain ⟨_, _, hattach, h₄⟩ := bind_eq_ok h₃
    cases hattach
    obtain ⟨_, walked, hwalk, h₅⟩ := bind_eq_ok h₄
    cases h₅
    obtain rfl := eq_of_visitRelationships hscalars.walked hwalk
    have hplaces := places_of_place hplace
    have hvalues := values?_of_readFields hread (hissues (hplaces.issues.symm.trans hclean))
    obtain ⟨-, issues, rfl⟩ := hbetween
    refine ⟨_, hvalues, ?_, ?_, hplaces⟩ <;> rfl
  dsimp only at h₂
  split at h₂
  · obtain ⟨_, required, hrequire, h₃⟩ := bind_eq_ok h₂
    have hrequired : site.Asked [] read required := requireFields_asked hrequire
    have hboth := hasked.trans hrequired
    rw [List.append_nil] at hboth
    obtain ⟨between, hresult⟩ := hwritten hboth h₃ hrequired.clean
    exact ⟨known, found, values, between, hfinds, hresult⟩
  · obtain ⟨between, hresult⟩ := hwritten hasked h₂ id
    exact ⟨known, found, values, between, hfinds, hresult⟩

end WalkSite

end NestedResources
