import NestedResources.Demo.Music
import NestedResources.Proofs.Dict
import NestedResources.Proofs.Schema.Lookup

/-!
# What accepted schemas guarantee

Resources without a fault have the columns that their relationships join on, and the targets and inverses
that these name (`Resource.fault?_eq_none_iff`). All resources that a registry is built of are in it. Fields
are told apart by their names; columns and relationships are found as declared where no two have one name
(`Registry.declarations_of_build`).
-/
namespace NestedResources

/-! ## Filing resources -/

namespace Schema

variable {table filed : Dict Resource} {rs : List Resource}

/-- What is filed is what was there and what was added. -/
theorem get?_file (h : file table rs = .ok filed) (name : String) (r : Resource) :
    filed.get? name = some r ↔ table.get? name = some r ∨ r ∈ rs ∧ r.name = name := by
  induction rs generalizing table with
  | nil =>
    cases h
    simp
  | cons new rs ih =>
    unfold file at h
    split at h
    · cases h
    · rename_i hfree
      have hnone : table.get? new.name = none := by simpa [Dict.contains] using hfree
      rw [ih h, List.mem_cons]
      by_cases hname : name = new.name
      · subst hname
        rw [Dict.get?_insert_self, hnone]
        constructor
        · rintro (h | ⟨hr, heq⟩)
          · cases h
            exact .inr ⟨.inl rfl, rfl⟩
          · exact .inr ⟨.inr hr, heq⟩
        · rintro (h | ⟨rfl | hr, heq⟩)
          · cases h
          · exact .inl rfl
          · exact .inr ⟨hr, heq⟩
      · rw [Dict.get?_insert_of_ne _ hname]
        refine or_congr_right (and_congr_left fun heq => ⟨.inr, fun hr => hr.resolve_left ?_⟩)
        rintro rfl
        exact hname heq.symm

/-- The resources of a schema are those it was made of. -/
theorem resource?_ofList {s : Schema} (h : ofList rs = .ok s) (name : String) (r : Resource) :
    s.resource? name = some r ↔ r ∈ rs ∧ r.name = name := by
  unfold ofList at h
  split at h
  · cases h
  · rename_i table hfile
    split at h
    · cases h
    · cases h
      refine (get?_file hfile name r).trans (or_iff_right ?_)
      rw [Dict.get?_empty]
      exact nofun

end Schema

/-! ## Resources without a fault -/

/-- Whether a field is stored in a column. -/
def Resource.HasColumn (r : Resource) (column : String) : Prop := ∃ f ∈ r.fields, f.column = column

/-- Columns on two sides that exist there, one for each. -/
structure Pairing (near : Resource) (own : List String) (far : Resource) (others : List String) : Prop where
  ne_nil : own ≠ []
  length : own.length = others.length
  near : ∀ c ∈ own, near.HasColumn c
  far : ∀ c ∈ others, far.HasColumn c

/-- A join with everything it needs on both sides. -/
def Join.Stands (near far : Resource) : Join → Prop
  | .foreignKey own referenced => Pairing near own far referenced
  | .reverse own held => Pairing near own far held
  | .association table own other => table ≠ "" ∧ own ≠ "" ∧ other ≠ "" ∧ own ≠ other

/-- A relationship with a join that stands to a resource among others, and an inverse there if it names one. -/
def Relationship.Stands (among : Dict Resource) (r : Resource) (rel : Relationship) : Prop :=
  ∃ target, among.get? rel.target = some target ∧ rel.join.Stands r target ∧
    ∀ name, rel.inverse = some name → ∃ back, target.relationship? name = some back

/-- What makes a resource fit in among others. -/
structure Resource.Sound (among : Dict Resource) (r : Resource) : Prop where
  identified : r.identity ≠ []
  declared : ∀ id ∈ r.identity, ∃ f, r.field? id = some f
  nodup : (r.fields.map Field.name).Nodup
  apart : ∀ f ∈ r.fields, r.relationship? f.name = none
  stands : ∀ rel ∈ r.relationships, rel.Stands among r

namespace Resource

variable {among : Dict Resource} {r near far target : Resource} {rel : Relationship} {own others : List String}

theorem isSome_fieldByColumn?_iff {column : String} :
    (r.fieldByColumn? column).isSome = true ↔ r.HasColumn column := by
  simp [fieldByColumn?, HasColumn, List.find?_isSome]

theorem unknownColumn?_eq_none_iff : r.unknownColumn? own = none ↔ ∀ c ∈ own, r.HasColumn c := by
  rw [unknownColumn?, List.find?_eq_none]
  refine forall₂_congr fun c _ => ?_
  rw [← isSome_fieldByColumn?_iff, Option.isNone_iff_eq_none, Option.isSome_iff_ne_none]

theorem columnFault?_eq_none_iff {relationship : String} :
    columnFault? relationship near own far others = none ↔
      (∀ c ∈ own, near.HasColumn c) ∧ ∀ c ∈ others, far.HasColumn c := by
  rw [columnFault?, Option.or_eq_none_iff, Option.map_eq_none_iff, Option.map_eq_none_iff,
    unknownColumn?_eq_none_iff, unknownColumn?_eq_none_iff]

/-- Columns are checked for their number first, whichever side holds them. -/
theorem pairing_iff {fault : SchemaFault} {columns : Option SchemaFault}
    (h : columns = none ↔ (∀ c ∈ own, near.HasColumn c) ∧ ∀ c ∈ others, far.HasColumn c) :
    (if own = [] ∨ own.length ≠ others.length then some fault else columns) = none ↔
      Pairing near own far others := by
  split
  · rename_i hbad
    exact ⟨nofun, fun h => (hbad.elim h.ne_nil fun hne => hne h.length).elim⟩
  · rename_i hgood
    obtain ⟨hsome, hlength⟩ := not_or.1 hgood
    rw [h]
    exact ⟨fun h => ⟨hsome, not_not.1 hlength, h.1, h.2⟩, fun h => ⟨h.near, h.far⟩⟩

theorem joinFault?_eq_none_iff : r.joinFault? target rel = none ↔ rel.join.Stands r target := by
  unfold joinFault?
  cases rel.join with
  | foreignKey own referenced => exact pairing_iff columnFault?_eq_none_iff
  | reverse own held => exact pairing_iff (columnFault?_eq_none_iff.trans and_comm)
  | association table own other =>
    rw [Join.Stands, ← not_or, ← not_or, ← not_or]
    dsimp only
    split
    · rename_i hbad
      exact ⟨nofun, fun h => absurd hbad h⟩
    · rename_i hgood
      exact ⟨fun _ => hgood, fun _ => rfl⟩

theorem inverseFault?_eq_none_iff : inverseFault? target rel = none ↔
    ∀ name, rel.inverse = some name → ∃ back, target.relationship? name = some back := by
  unfold inverseFault?
  cases rel.inverse with
  | none => simp
  | some name => simp [Option.isNone_iff_eq_none, Option.ne_none_iff_exists']

theorem relationshipFault?_eq_none_iff : r.relationshipFault? among rel = none ↔ rel.Stands among r := by
  unfold relationshipFault? Relationship.Stands
  split
  · rename_i hnone
    simp [hnone]
  · rename_i target htarget
    rw [Option.or_eq_none_iff, joinFault?_eq_none_iff, inverseFault?_eq_none_iff]
    simp [htarget]

/-- Fields are free of faults if each has a name that no earlier field and no relationship has. -/
theorem fieldFault?_eq_none_iff {seen : List String} {fields : List Field} :
    r.fieldFault? seen fields = none ↔
      (fields.map Field.name).Nodup ∧ ∀ f ∈ fields, f.name ∉ seen ∧ r.relationship? f.name = none := by
  refine ⟨fun h => ?_, ?_⟩
  · obtain ⟨hnodup, hseen⟩ := nodup_of_fieldFault? h
    exact ⟨hnodup, fun f hf => ⟨hseen f hf, relationship?_of_fieldFault? h f hf⟩⟩
  · rintro ⟨hnodup, hfree⟩
    induction fields generalizing seen with
    | nil => rfl
    | cons f fs ih =>
      obtain ⟨hnew, hnodup⟩ := List.nodup_cons.1 hnodup
      obtain ⟨⟨hseen, hrel⟩, hfree⟩ := List.forall_mem_cons.1 hfree
      unfold fieldFault?
      rw [if_neg hseen, hrel, if_neg (by simp)]
      refine ih hnodup fun g hg => ⟨fun hm => ?_, (hfree g hg).2⟩
      rcases List.mem_cons.1 hm with heq | hm
      · exact hnew (List.mem_map.2 ⟨g, hg, heq⟩)
      · exact (hfree g hg).1 hm

/-- The resources without a fault are those that fit in. -/
theorem fault?_eq_none_iff : r.fault? among = none ↔ r.Sound among := by
  unfold fault?
  split
  · rename_i hnone
    exact ⟨nofun, fun h => absurd hnone h.identified⟩
  · rename_i hsome
    rw [Option.or_eq_none_iff, Option.or_eq_none_iff, Option.map_eq_none_iff, List.find?_eq_none,
      fieldFault?_eq_none_iff, List.findSome?_eq_none_iff]
    simp only [relationshipFault?_eq_none_iff, Option.isNone_iff_eq_none, List.not_mem_nil,
      not_false_eq_true, true_and]
    constructor
    · rintro ⟨hdeclared, ⟨hnodup, hapart⟩, hstands⟩
      exact ⟨hsome, fun id hid => Option.ne_none_iff_exists'.1 (hdeclared id hid), hnodup, hapart, hstands⟩
    · rintro ⟨-, hdeclared, hnodup, hapart, hstands⟩
      exact ⟨fun id hid => Option.ne_none_iff_exists'.2 (hdeclared id hid), ⟨hnodup, hapart⟩, hstands⟩

end Resource

/-! ## Declarations and look-ups -/

/-- What look-ups in a resource give for what it declares. -/
structure Resource.Resolves (s : Schema) (r : Resource) : Prop where
  fields : ∀ f ∈ r.fields, r.field? f.name = some f
  columns : (r.fields.map Field.column).Nodup → ∀ f ∈ r.fields, r.fieldByColumn? f.column = some f
  relationships : (r.relationships.map Relationship.name).Nodup →
    ∀ rel ∈ r.relationships, r.relationship? rel.name = some rel
  apart : ∀ f ∈ r.fields, r.relationship? f.name = none
  identity : r.identity ≠ [] ∧ r.identityFields.map Field.name = r.identity
  targets : ∀ rel ∈ r.relationships, ∃ target, s.target? rel = some target ∧ rel.join.Stands r target ∧
    ∀ name, rel.inverse = some name → ∃ back, target.relationship? name = some back

namespace Resource

variable {s : Schema} {r : Resource}

theorem names_of_declared {identity : List String} (h : ∀ id ∈ identity, ∃ f, r.field? id = some f) :
    (identity.filterMap r.field?).map Field.name = identity := by
  induction identity with
  | nil => rfl
  | cons id rest ih =>
    obtain ⟨⟨f, hf⟩, hrest⟩ := List.forall_mem_cons.1 h
    have hname : f.name = id := by simpa using List.find?_some hf
    rw [List.filterMap_cons_some hf, List.map_cons, hname, ih hrest]

theorem Sound.resolves (h : r.Sound s.table) : r.Resolves s where
  fields _ hf := (List.find?_key_eq_some_iff h.nodup).2 ⟨hf, rfl⟩
  columns hnodup _ hf := (List.find?_key_eq_some_iff hnodup).2 ⟨hf, rfl⟩
  relationships hnodup _ hrel := (List.find?_key_eq_some_iff hnodup).2 ⟨hrel, rfl⟩
  apart := h.apart
  identity := ⟨h.identified, names_of_declared h.declared⟩
  targets := h.stands

end Resource

namespace Registry

/-- A registry has the resources that it is built of, and these resolve what they declare. -/
theorem declarations_of_build {resources : List Resource} {gates : List (String × Gate)}
    {relationshipGates : List ((String × String) × Gate)} {registry : Registry}
    (h : build resources gates relationshipGates = .ok registry) (r : Resource) :
    (registry.schema.resource? r.name = some r ↔ r ∈ resources) ∧
      (r ∈ resources → r.Resolves registry.schema) := by
  obtain ⟨s, hs, h⟩ := Except.bind_eq_ok.1 h
  have hschema : registry.schema = s := by
    dsimp only at h
    split at h
    · cases h
    · cases h
      rfl
  have hmem : registry.schema.resource? r.name = some r ↔ r ∈ resources := by
    rw [hschema, Schema.resource?_ofList hs]
    exact and_iff_left rfl
  refine ⟨hmem, fun hr => Resource.Sound.resolves (Resource.fault?_eq_none_iff.1 ?_)⟩
  exact Schema.fault?_of_resource? (hmem.2 hr)

end Registry

namespace Music

/-- The price of a track is found by its name and by its column, and its playlists by their name. -/
theorem tracks_resolve : ∃ registry, Registry.build resources [] [] = .ok registry ∧
    tracks.Resolves registry.schema ∧ registry.schema.resource? "tracks" = some tracks := by
  have hok : (Registry.build resources [] []).isOk = true := by decide +kernel
  obtain ⟨registry, h⟩ := Except.exists_of_isOk hok
  have hmem : tracks ∈ resources := by simp [resources]
  obtain ⟨hiff, hresolves⟩ := Registry.declarations_of_build h tracks
  exact ⟨registry, h, hresolves hmem, hiff.2 hmem⟩

/-- Studios, some of them parts of others. -/
def studios : Resource where
  name := "studios"
  identity := ["studio_id"]
  fields := [key "studio_id", { field "parent_id" .integer with optional := true }]
  relationships := [
    { name := "parent", target := "studios", cardinality := .manyToOne,
      join := .foreignKey ["parent_id"] ["studio_id"] }]

/-- Sleeves that declare nearly everything twice, on a studio that does not lead back to them. -/
def sleeves : Resource where
  name := "sleeves"
  identity := ["sleeve_id", "sleeve_id"]
  fields := [
    key "sleeve_id",
    field "studio_id" .integer,
    { field "front" .string with storedAs := some "sleeve" },
    { field "back" .string with storedAs := some "sleeve" }]
  relationships := [
    toOne "studio" "studios" "studio_id" "parent",
    { name := "studio", target := "sleeves", cardinality := .manyToOne,
      join := .foreignKey ["sleeve_id"] ["sleeve_id"] }]

/-- A registry is built of sleeves whose second field in a column and second relationship of a name are
not found, whose identity has one field twice, and whose inverse leads from studios to studios. -/
theorem sleeves_accepted : ∃ registry, Registry.build [studios, sleeves] [] [] = .ok registry ∧
    registry.schema.resource? "sleeves" = some sleeves ∧
    (∃ f ∈ sleeves.fields, sleeves.fieldByColumn? f.column ≠ some f) ∧
    (∃ rel ∈ sleeves.relationships, sleeves.relationship? rel.name ≠ some rel) ∧
    ¬sleeves.identity.Nodup ∧
    ∃ rel ∈ sleeves.relationships, ∃ inverse back, rel.inverse = some inverse ∧
      registry.schema.target? rel = some studios ∧ studios.relationship? inverse = some back ∧
      back.target ≠ sleeves.name := by
  have hok : (Registry.build [studios, sleeves] [] []).isOk = true := by decide +kernel
  obtain ⟨registry, h⟩ := Except.exists_of_isOk hok
  have hfound (r : Resource) (hr : r ∈ [studios, sleeves]) : registry.schema.resource? r.name = some r := by
    obtain ⟨s, hs, h⟩ := Except.bind_eq_ok.1 h
    cases h
    exact (Schema.resource?_ofList hs _ _).2 ⟨hr, rfl⟩
  refine ⟨registry, h, hfound sleeves (by simp), ?_, ?_, by decide, ?_⟩
  · exact ⟨{ field "back" .string with storedAs := some "sleeve" }, by simp [sleeves], by decide⟩
  · exact ⟨_, List.mem_cons_of_mem _ (List.mem_singleton.2 rfl), by decide⟩
  · exact ⟨toOne "studio" "studios" "studio_id" "parent", List.mem_cons_self, "parent", _, rfl,
      hfound studios (by simp), rfl, by decide⟩

end Music

end NestedResources
