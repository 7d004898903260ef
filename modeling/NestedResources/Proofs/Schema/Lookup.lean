import Mathlib.Data.List.Nodup
import NestedResources.Proofs.Except
import NestedResources.Schema.Path

/-!
# Looking things up in a schema

What is found under a name has that name, and a path that resolves ends in a field that may be
queried.
-/
namespace NestedResources

theorem List.dropLast_append_getLastD {path : List String} (h : path ≠ []) :
    path.dropLast ++ [path.getLastD ""] = path := by
  rw [List.getLastD_eq_getLast?, List.getLast?_eq_some_getLast h, Option.getD_some,
    List.dropLast_append_getLast]

/-- Items with different keys are found by their keys. -/
theorem List.find?_key_eq_some_iff {α κ : Type} [DecidableEq κ] {key : α → κ} {items : List α}
    (h : (items.map key).Nodup) {k : κ} {a : α} :
    items.find? (fun b => key b = k) = some a ↔ a ∈ items ∧ key a = k := by
  refine ⟨fun ha => ⟨List.mem_of_find?_eq_some ha, by simpa using List.find?_some ha⟩, ?_⟩
  rintro ⟨ha, rfl⟩
  cases hfind : items.find? (fun b => key b = key a) with
  | none =>
    rw [List.find?_eq_none] at hfind
    simpa using hfind a ha
  | some b =>
    have hkey : key b = key a := by simpa using List.find?_some hfind
    rw [List.inj_on_of_nodup_map h (List.mem_of_find?_eq_some hfind) ha hkey]

theorem Resource.name_of_relationship? {r : Resource} {name : String} {rel : Relationship}
    (h : r.relationship? name = some rel) : rel.name = name := by
  simpa using List.find?_some h

theorem Schema.eq_of_name {s : Schema} {r r' : Resource} (h : s.resource? r.name = some r)
    (h' : s.resource? r'.name = some r') (hname : r.name = r'.name) : r = r' := by
  rw [hname] at h
  exact Option.some.inj (h.symm.trans h')

theorem Schema.resource?_of_target? {s : Schema} {rel : Relationship} {target : Resource}
    (h : s.target? rel = some target) : s.resource? target.name = some target := by
  have hname : target.name = rel.target := name_of_resource? h
  exact hname ▸ h

theorem Schema.require_eq_ok {s : Schema} {name : String} {r : Resource} :
    s.require name = .ok r ↔ s.resource? name = some r := by
  unfold Schema.require
  cases s.resource? name <;> simp

/-- Fields without a fault have names that no relationship has. -/
theorem Resource.relationship?_of_fieldFault? {r : Resource} {seen : List String} {fields : List Field}
    (h : r.fieldFault? seen fields = none) : ∀ f ∈ fields, r.relationship? f.name = none := by
  induction fields generalizing seen with
  | nil => exact fun f hf => by cases hf
  | cons g fs ih =>
    unfold fieldFault? at h
    split at h
    · cases h
    · split at h
      · cases h
      · rename_i hfree
        intro f hf
        rcases List.mem_cons.1 hf with rfl | hf
        · simpa using hfree
        · exact ih h f hf

/-- Fields without a fault have names of their own. -/
theorem Resource.nodup_of_fieldFault? {r : Resource} {seen : List String} {fields : List Field}
    (h : r.fieldFault? seen fields = none) :
    (fields.map Field.name).Nodup ∧ ∀ f ∈ fields, f.name ∉ seen := by
  induction fields generalizing seen with
  | nil => exact ⟨List.nodup_nil, fun f hf => by cases hf⟩
  | cons g fs ih =>
    unfold fieldFault? at h
    split at h
    · cases h
    rename_i hnew
    split at h
    · cases h
    obtain ⟨hnodup, hseen⟩ := ih h
    refine ⟨List.nodup_cons.2 ⟨fun hm => ?_, hnodup⟩, fun f hf => ?_⟩
    · obtain ⟨f, hf, hname⟩ := List.mem_map.1 hm
      exact hseen f hf (hname ▸ List.mem_cons_self)
    · rcases List.mem_cons.1 hf with rfl | hf
      · exact hnew
      · exact fun hm => hseen f hf (List.mem_cons_of_mem _ hm)

/-- What a resource of a schema is free of. -/
theorem Schema.faultless_of_resource? {s : Schema} {name : String} {r : Resource}
    (hr : s.resource? name = some r) : r.identity ≠ [] ∧
      (∀ id ∈ r.identity, ∃ f, r.field? id = some f) ∧ r.fieldFault? [] r.fields = none ∧
      ∀ rel ∈ r.relationships, r.relationshipFault? s.table rel = none := by
  have hfault := fault?_of_resource? hr
  unfold Resource.fault? at hfault
  split at hfault
  · cases hfault
  · rename_i hne
    obtain ⟨hnames, hrest⟩ := Option.or_eq_none_iff.1 hfault
    obtain ⟨hfields, hrels⟩ := Option.or_eq_none_iff.1 hrest
    refine ⟨hne, fun id hid => Option.isSome_iff_exists.1 ?_, hfields, List.findSome?_eq_none_iff.1 hrels⟩
    have hdeclared := List.find?_eq_none.1 (Option.map_eq_none_iff.1 hnames) id hid
    simpa [Option.isSome_iff_ne_none] using hdeclared

/-- The name of a field is no name of a relationship. -/
theorem Schema.relationship?_of_field? {s : Schema} {r : Resource} {name : String} {f : Field}
    (hr : s.resource? r.name = some r) (hf : r.field? name = some f) : r.relationship? name = none := by
  obtain ⟨-, -, hfields, -⟩ := faultless_of_resource? hr
  have hname : f.name = name := by simpa using List.find?_some hf
  exact hname ▸ Resource.relationship?_of_fieldFault? hfields f (List.mem_of_find?_eq_some hf)

/-- Fields are found by their names. -/
theorem Resource.field?_of_mem {s : Schema} {r : Resource} (hr : s.resource? r.name = some r) {f : Field}
    (hf : f ∈ r.fields) : r.field? f.name = some f := by
  obtain ⟨-, -, hfields, -⟩ := Schema.faultless_of_resource? hr
  exact (List.find?_key_eq_some_iff (nodup_of_fieldFault? hfields).1).2 ⟨hf, rfl⟩

/-- The columns of a relationship of a schema fit together. -/
theorem Schema.joinFault?_eq_none {s : Schema} {name : String} {r target : Resource} {rel : Relationship}
    (hr : s.resource? name = some r) (hrel : rel ∈ r.relationships) (htarget : s.target? rel = some target) :
    r.joinFault? target rel = none := by
  obtain ⟨-, -, -, hrels⟩ := faultless_of_resource? hr
  have hfault := hrels rel hrel
  have hget : s.table.get? rel.target = some target := htarget
  simp only [Resource.relationshipFault?, hget] at hfault
  exact (Option.or_eq_none_iff.1 hfault).1

/-- The field at the end of a path lies behind its crossings and may be queried. -/
theorem Schema.fieldPath_eq_ok {s : Schema} {r : Resource} {path : String} {p : FieldPath}
    (h : s.fieldPath r path = .ok p) :
    s.cross path r (Text.fields '.' path).dropLast = .ok (p.hops, p.resource) ∧
      p.resource.field? ((Text.fields '.' path).getLastD "") = some p.field ∧
      p.field.isFilterable = true := by
  obtain ⟨⟨hops, last⟩, hcross, h⟩ := Except.bind_eq_ok.1 h
  cases hf : last.field? ((Text.fields '.' path).getLastD "") with
  | none =>
    simp only [hf] at h
    cases h
  | some f =>
    simp only [hf] at h
    split at h
    · cases h
    · split at h
      · cases h
      · rename_i hw hq
        cases h
        simp_all [Field.isFilterable]

namespace Schema

variable {s : Schema}

/-- The relationship of a name with the resource it leads to. -/
def step? (s : Schema) (r : Resource) (name : String) : Option (Relationship × Resource) :=
  (r.relationship? name).bind fun rel => (s.target? rel).map (rel, ·)

/-- The resource that a chain of relationships leads to. -/
def at? (s : Schema) : Resource → List String → Option Resource
  | r, [] => some r
  | r, name :: rest => (s.step? r name).bind fun x => at? s x.2 rest

/-- Whether the last relationship of a chain has several members. -/
def LeadsToMany (s : Schema) (r : Resource) (path : List String) : Prop :=
  ∃ parent rel target, s.at? r path.dropLast = some parent ∧
    s.step? parent (path.getLastD "") = some (rel, target) ∧ rel.isMany = true

theorem step?_eq_some {r target : Resource} {name : String} {rel : Relationship} :
    s.step? r name = some (rel, target) ↔
      r.relationship? name = some rel ∧ s.resource? rel.target = some target := by
  simp only [step?, Option.bind_eq_some_iff, Option.map_eq_some_iff, Prod.mk.injEq, target?]
  constructor
  · rintro ⟨_, hrel, _, htarget, rfl, rfl⟩
    exact ⟨hrel, htarget⟩
  · rintro ⟨hrel, htarget⟩
    exact ⟨rel, hrel, target, htarget, rfl, rfl⟩

theorem at?_append (r : Resource) (start rest : List String) :
    s.at? r (start ++ rest) = (s.at? r start).bind (s.at? · rest) := by
  induction start generalizing r with
  | nil => rfl
  | cons name start ih =>
    rw [List.cons_append, at?, at?]
    cases s.step? r name with
    | none => rfl
    | some x => exact ih x.2

/-- One more relationship at the end of a chain. -/
theorem at?_concat {r parent : Resource} {start : List String} (h : s.at? r start = some parent)
    (name : String) : s.at? r (start ++ [name]) = (s.step? parent name).map (·.2) := by
  rw [at?_append, h, Option.bind_some, at?]
  cases s.step? parent name <;> rfl

theorem at?_of_step? {r parent target : Resource} {path : List String} {rel : Relationship}
    (hne : path ≠ []) (hat : s.at? r path.dropLast = some parent)
    (hstep : s.step? parent (path.getLastD "") = some (rel, target)) : s.at? r path = some target := by
  rw [← List.dropLast_append_getLastD hne, at?_concat hat, hstep]
  rfl

/-- A chain from a resource of a schema leads to resources of it. -/
theorem resource?_of_at? {r last : Resource} {path : List String}
    (hr : s.resource? r.name = some r) (h : s.at? r path = some last) :
    s.resource? last.name = some last := by
  induction path generalizing r with
  | nil =>
    cases h
    exact hr
  | cons name rest ih =>
    obtain ⟨⟨rel, target⟩, hstep, h⟩ := Option.bind_eq_some_iff.1 h
    have htarget := (step?_eq_some.1 hstep).2
    exact ih (name_of_resource? htarget ▸ htarget) h

/-- Crossings lead where the chain of their relationships does. -/
theorem at?_of_cross {display : String} {r last : Resource} {path : List String} {hops : List Hop}
    (h : s.cross display r path = .ok (hops, last)) : s.at? r path = some last := by
  induction path generalizing r hops with
  | nil =>
    cases h
    rfl
  | cons name rest ih =>
    unfold cross at h
    split at h
    · cases h
    · rename_i rel hrel
      obtain ⟨target, htarget, h⟩ := Except.bind_eq_ok.1 h
      obtain ⟨⟨hops', last'⟩, hrest, h⟩ := Except.bind_eq_ok.1 h
      cases h
      rw [at?, step?_eq_some.2 ⟨hrel, require_eq_ok.1 htarget⟩]
      exact ih hrest

/-- The last crossing of a path is by its last relationship. -/
theorem step?_of_cross {display : String} {r last : Resource} {path : List String} {hops : List Hop}
    {hop : Hop} (h : s.cross display r path = .ok (hops, last)) (hlast : hops.getLast? = some hop) :
    s.at? r path.dropLast = some hop.resource ∧
      s.step? hop.resource (path.getLastD "") = some (hop.relationship, last) := by
  induction path generalizing r hops with
  | nil =>
    cases h
    cases hlast
  | cons name rest ih =>
    unfold cross at h
    split at h
    · cases h
    · rename_i rel hrel
      obtain ⟨target, htarget, h⟩ := Except.bind_eq_ok.1 h
      obtain ⟨⟨hops', last'⟩, hrest, h⟩ := Except.bind_eq_ok.1 h
      cases h
      have hstep := step?_eq_some.2 ⟨hrel, require_eq_ok.1 htarget⟩
      cases rest with
      | nil =>
        cases hrest
        cases hlast
        exact ⟨rfl, hstep⟩
      | cons next rest =>
        have hhops : hops' ≠ [] := by
          rintro rfl
          unfold cross at hrest
          split at hrest
          · cases hrest
          · obtain ⟨_, _, hrest⟩ := Except.bind_eq_ok.1 hrest
            obtain ⟨_, _, hrest⟩ := Except.bind_eq_ok.1 hrest
            cases hrest
        obtain ⟨first, others, rfl⟩ := List.exists_cons_of_ne_nil hhops
        rw [List.getLast?_cons_cons] at hlast
        obtain ⟨hat, hlaststep⟩ := ih hrest hlast
        rw [List.dropLast_cons_of_ne_nil (List.cons_ne_nil next rest), at?, hstep]
        exact ⟨hat, by simpa using hlaststep⟩

end Schema

end NestedResources
