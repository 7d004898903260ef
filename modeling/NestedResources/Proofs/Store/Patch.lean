import Mathlib.Data.List.Nodup
import Mathlib.Logic.Function.Basic
import NestedResources.Proofs.Json.Quoted
import NestedResources.Proofs.Store.Same

/-!
# Differences as patches

The hashes of a store map a key and a field to a document: to the row of a resource, or to 1 for a link.
The writes of a difference are exactly the places where two states differ, each with the text that the
later state has there (`Tables.mem_diff`). So they turn the hashes of the earlier state into those of the
later one in whatever order they are applied (`Tables.foldl_run_diff`).
-/
namespace NestedResources

/-! ## Keys -/

namespace KeySpace

variable (keys : KeySpace)

theorem resource_injective : Function.Injective keys.resource := by
  intro r s h
  have hchars := congrArg String.toList h
  simp only [resource, String.toList_append] at hchars
  exact String.toList_injective (List.append_cancel_left hchars)

theorem association_injective : Function.Injective keys.association := by
  intro t u h
  have hchars := congrArg String.toList h
  simp only [association, String.toList_append] at hchars
  exact String.toList_injective (List.append_cancel_left hchars)

/-- No resource has the hash of an association table. -/
theorem resource_ne_association (r t : String) : keys.resource r ≠ keys.association t := by
  intro h
  have hchars := congrArg String.toList h
  simp only [resource, association, String.toList_append, List.append_assoc] at hchars
  have hrest := List.append_cancel_left hchars
  cases (List.cons.inj (List.cons.inj hrest).2).1

end KeySpace

/-! ## Hashes -/

/-- A key with a field. -/
abbrev HashPlace := String × String

namespace Tables

/-- The fields of all hashes with the documents that their texts are of. -/
def fields (keys : KeySpace) (t : Tables) : List (HashPlace × Json) :=
  (t.rows.entries.flatMap fun (resource, rows) =>
    rows.entries.map fun (key, record) => ((keys.resource resource, key), Json.ofDict record)) ++
  t.links.entries.flatMap fun (name, links) =>
    links.links.map fun l => ((keys.association name, l.text), Json.nat 1)

/-- The document at a place of the hashes. -/
def hash (keys : KeySpace) (t : Tables) (place : HashPlace) : Option Json :=
  ((t.fields keys).find? (·.1 = place)).map (·.2)

/-- The text at a place of the hashes. -/
def texts (keys : KeySpace) (t : Tables) (place : HashPlace) : Option String :=
  (t.hash keys place).map Json.compact

variable {keys : KeySpace} {t before after : Tables}

theorem rowAt?_eq_some_iff {resource key : String} {record : Record} :
    t.rowAt? resource key = some record ↔
      ∃ rows, (resource, rows) ∈ t.rows.entries ∧ (key, record) ∈ rows.entries := by
  rw [rowAt?, table]
  constructor
  · intro h
    cases hrows : t.rows.get? resource with
    | none =>
      rw [hrows] at h
      cases h
    | some rows =>
      rw [hrows] at h
      exact ⟨rows, Dict.get?_eq_some_iff.1 hrows, Dict.get?_eq_some_iff.1 h⟩
  · rintro ⟨rows, hrows, hrecord⟩
    rw [Dict.get?_eq_some_iff.2 hrows]
    exact Dict.get?_eq_some_iff.2 hrecord

theorem mem_linksOf_iff {name : String} {link : Link} :
    link ∈ (t.linksOf name).links ↔ ∃ links, (name, links) ∈ t.links.entries ∧ link ∈ links.links := by
  rw [linksOf]
  constructor
  · intro h
    cases hlinks : t.links.get? name with
    | none =>
      rw [hlinks] at h
      cases h
    | some links =>
      rw [hlinks] at h
      exact ⟨links, Dict.get?_eq_some_iff.1 hlinks, h⟩
  · rintro ⟨links, hlinks, hlink⟩
    rw [Dict.get?_eq_some_iff.2 hlinks]
    exact hlink

theorem mem_fields {place : HashPlace} {v : Json} : (place, v) ∈ t.fields keys ↔
    (∃ resource key record, t.rowAt? resource key = some record ∧
      place = (keys.resource resource, key) ∧ v = Json.ofDict record) ∨
    ∃ name, ∃ link ∈ (t.linksOf name).links,
      place = (keys.association name, link.text) ∧ v = Json.nat 1 := by
  simp only [fields, List.mem_append, List.mem_flatMap, List.mem_map, rowAt?_eq_some_iff, mem_linksOf_iff]
  constructor
  · rintro (⟨⟨resource, rows⟩, hrows, ⟨key, record⟩, hrecord, heq⟩ |
      ⟨⟨name, links⟩, hlinks, link, hlink, heq⟩)
    · cases heq
      exact .inl ⟨resource, key, record, ⟨rows, hrows, hrecord⟩, rfl, rfl⟩
    · cases heq
      exact .inr ⟨name, link, ⟨links, hlinks, hlink⟩, rfl, rfl⟩
  · rintro (⟨resource, key, record, ⟨rows, hrows, hrecord⟩, rfl, rfl⟩ |
      ⟨name, link, ⟨links, hlinks, hlink⟩, rfl, rfl⟩)
    · exact .inl ⟨(resource, rows), hrows, (key, record), hrecord, rfl⟩
    · exact .inr ⟨(name, links), hlinks, link, hlink, rfl⟩

/-- No place has two documents. -/
theorem eq_of_mem_fields {place : HashPlace} {v w : Json} (hv : (place, v) ∈ t.fields keys)
    (hw : (place, w) ∈ t.fields keys) : v = w := by
  rcases mem_fields.1 hv with ⟨r, k, record, hrow, rfl, rfl⟩ | ⟨name, l, hl, rfl, rfl⟩
  · rcases mem_fields.1 hw with ⟨r', k', record', hrow', hplace, rfl⟩ | ⟨name, l, hl, hplace, -⟩
    · obtain ⟨hkey, rfl⟩ := Prod.mk.inj hplace
      cases keys.resource_injective hkey
      rw [Option.some.inj (hrow.symm.trans hrow')]
    · exact absurd (congrArg Prod.fst hplace) (keys.resource_ne_association r name)
  · rcases mem_fields.1 hw with ⟨r, k, record, hrow, hplace, rfl⟩ | ⟨name', l', hl', hplace, rfl⟩
    · exact absurd (congrArg Prod.fst hplace).symm (keys.resource_ne_association r name)
    · rfl

theorem hash_eq_some_iff {place : HashPlace} {v : Json} :
    t.hash keys place = some v ↔ (place, v) ∈ t.fields keys := by
  rw [hash, Option.map_eq_some_iff]
  constructor
  · rintro ⟨e, he, rfl⟩
    have hplace : e.1 = place := by simpa using List.find?_some he
    rw [← hplace]
    exact List.mem_of_find?_eq_some he
  · intro hmem
    cases hfind : (t.fields keys).find? (·.1 = place) with
    | none =>
      have hnone := List.find?_eq_none.1 hfind _ hmem
      exact absurd (decide_eq_true rfl) hnone
    | some e =>
      have hplace : e.1 = place := by simpa using List.find?_some hfind
      have he : (place, e.2) ∈ t.fields keys := by
        rw [← hplace]
        exact List.mem_of_find?_eq_some hfind
      exact ⟨e, rfl, eq_of_mem_fields he hmem⟩

theorem hash_resource (resource key : String) :
    t.hash keys (keys.resource resource, key) = (t.rowAt? resource key).map Json.ofDict := by
  refine Option.ext fun v => ?_
  rw [hash_eq_some_iff, mem_fields, Option.map_eq_some_iff]
  constructor
  · rintro (⟨r, k, record, hrow, hplace, rfl⟩ | ⟨name, l, -, hplace, -⟩)
    · obtain ⟨hkey, rfl⟩ := Prod.mk.inj hplace
      cases keys.resource_injective hkey
      exact ⟨record, hrow, rfl⟩
    · exact absurd (congrArg Prod.fst hplace) (keys.resource_ne_association resource name)
  · rintro ⟨record, hrow, rfl⟩
    exact .inl ⟨resource, key, record, hrow, rfl, rfl⟩

theorem hash_association (name : String) (link : Link) :
    t.hash keys (keys.association name, link.text) =
      if link ∈ (t.linksOf name).links then some (Json.nat 1) else none := by
  refine Option.ext fun v => ?_
  rw [hash_eq_some_iff, mem_fields]
  constructor
  · rintro (⟨r, k, record, -, hplace, -⟩ | ⟨name', l, hl, hplace, rfl⟩)
    · exact absurd (congrArg Prod.fst hplace).symm (keys.resource_ne_association r name)
    · obtain ⟨hkey, htext⟩ := Prod.mk.inj hplace
      cases keys.association_injective hkey
      cases Link.text_injective htext
      rw [if_pos hl]
  · intro h
    split at h
    · rename_i hl
      cases h
      exact .inr ⟨name, link, hl, rfl, rfl⟩
    · cases h

/-- Every place with a document is that of a row or of a link. -/
theorem place_cases {place : HashPlace} {v : Json} (h : t.hash keys place = some v) :
    (∃ resource key, place = (keys.resource resource, key)) ∨
      ∃ name, ∃ link : Link, place = (keys.association name, link.text) := by
  rcases mem_fields.1 (hash_eq_some_iff.1 h) with ⟨r, k, -, -, rfl, -⟩ | ⟨name, l, -, rfl, -⟩
  · exact .inl ⟨r, k, rfl⟩
  · exact .inr ⟨name, l, rfl⟩

end Tables

/-! ## Writes -/

namespace HashWrite

/-- Where a write goes. -/
def place : HashWrite → HashPlace
  | set key field _ => (key, field)
  | drop key field => (key, field)

/-- What a write leaves at its place. -/
def text? : HashWrite → Option String
  | set _ _ value => some value
  | drop _ _ => none

/-- Applies a write to the texts of hashes. -/
def run (texts : HashPlace → Option String) (w : HashWrite) : HashPlace → Option String :=
  Function.update texts w.place w.text?

theorem ext {v w : HashWrite} (hplace : v.place = w.place) (htext : v.text? = w.text?) : v = w := by
  cases v <;> cases w <;> simp_all [place, text?]

theorem exists_write (place : HashPlace) (text : Option String) :
    ∃ w : HashWrite, w.place = place ∧ w.text? = text :=
  match text with
  | some value => ⟨.set place.1 place.2 value, rfl, rfl⟩
  | none => ⟨.drop place.1 place.2, rfl, rfl⟩

theorem foldl_run_of_notMem {place : HashPlace} {writes : List HashWrite}
    (h : ∀ w ∈ writes, w.place ≠ place) (texts : HashPlace → Option String) :
    writes.foldl run texts place = texts place := by
  induction writes generalizing texts with
  | nil => rfl
  | cons w writes ih =>
    rw [List.foldl_cons, ih fun v hv => h v (List.mem_cons_of_mem w hv)]
    exact Function.update_of_ne (h w List.mem_cons_self).symm ..

/-- Writes to different places leave their texts. -/
theorem foldl_run_of_mem {w : HashWrite} {writes : List HashWrite} (hplaces : (writes.map place).Nodup)
    (hw : w ∈ writes) (texts : HashPlace → Option String) : writes.foldl run texts w.place = w.text? := by
  induction writes generalizing texts with
  | nil => cases hw
  | cons v writes ih =>
    obtain ⟨hnew, hrest⟩ := List.nodup_cons.1 hplaces
    rw [List.foldl_cons]
    rcases List.mem_cons.1 hw with rfl | hw
    · rw [foldl_run_of_notMem fun u hu hplace => hnew (List.mem_map.2 ⟨u, hu, hplace⟩)]
      exact Function.update_self ..
    · exact ih hrest hw _

end HashWrite

namespace Tables

variable {keys : KeySpace} {before after : Tables} {w : HashWrite}

theorem mem_rowSets : w ∈ rowSets keys before after ↔ ∃ resource key record,
    after.rowAt? resource key = some record ∧ before.hasRow resource key record = false ∧
      w = .set (keys.resource resource) key (Json.ofDict record).compact := by
  simp only [rowSets, List.mem_flatMap, List.mem_map, List.mem_filter, rowAt?_eq_some_iff,
    Bool.not_eq_true']
  constructor
  · rintro ⟨⟨resource, rows⟩, hrows, ⟨key, record⟩, ⟨hrecord, hmissing⟩, rfl⟩
    exact ⟨resource, key, record, ⟨rows, hrows, hrecord⟩, hmissing, rfl⟩
  · rintro ⟨resource, key, record, ⟨rows, hrows, hrecord⟩, hmissing, rfl⟩
    exact ⟨(resource, rows), hrows, (key, record), ⟨hrecord, hmissing⟩, rfl⟩

theorem mem_rowDrops : w ∈ rowDrops keys before after ↔ ∃ resource key record,
    before.rowAt? resource key = some record ∧ after.rowAt? resource key = none ∧
      w = .drop (keys.resource resource) key := by
  simp only [rowDrops, List.mem_flatMap, List.mem_map, List.mem_filter, rowAt?_eq_some_iff,
    Option.isNone_iff_eq_none, Dict.keys]
  constructor
  · rintro ⟨⟨resource, rows⟩, hrows, key, ⟨⟨⟨_, record⟩, hrecord, rfl⟩, hmissing⟩, rfl⟩
    exact ⟨resource, _, record, ⟨rows, hrows, hrecord⟩, hmissing, rfl⟩
  · rintro ⟨resource, key, record, ⟨rows, hrows, hrecord⟩, hmissing, rfl⟩
    exact ⟨(resource, rows), hrows, key, ⟨⟨(key, record), hrecord, rfl⟩, hmissing⟩, rfl⟩

theorem mem_linkSets : w ∈ linkSets keys before after ↔ ∃ name link,
    link ∈ (after.linksOf name).links ∧ link ∉ (before.linksOf name).links ∧
      w = .set (keys.association name) link.text "1" := by
  simp only [linkSets, List.mem_flatMap, List.mem_map, List.mem_filter, mem_linksOf_iff (t := after),
    LinkTable.contains, Bool.not_eq_true', decide_eq_false_iff_not]
  constructor
  · rintro ⟨⟨name, links⟩, hlinks, link, ⟨hlink, hmissing⟩, rfl⟩
    exact ⟨name, link, ⟨links, hlinks, hlink⟩, hmissing, rfl⟩
  · rintro ⟨name, link, ⟨links, hlinks, hlink⟩, hmissing, rfl⟩
    exact ⟨(name, links), hlinks, link, ⟨hlink, hmissing⟩, rfl⟩

theorem mem_linkDrops : w ∈ linkDrops keys before after ↔ ∃ name link,
    link ∈ (before.linksOf name).links ∧ link ∉ (after.linksOf name).links ∧
      w = .drop (keys.association name) link.text := by
  simp only [linkDrops, List.mem_flatMap, List.mem_map, List.mem_filter, mem_linksOf_iff (t := before),
    LinkTable.contains, Bool.not_eq_true', decide_eq_false_iff_not]
  constructor
  · rintro ⟨⟨name, links⟩, hlinks, link, ⟨hlink, hmissing⟩, rfl⟩
    exact ⟨name, link, ⟨links, hlinks, hlink⟩, hmissing, rfl⟩
  · rintro ⟨name, link, ⟨links, hlinks, hlink⟩, hmissing, rfl⟩
    exact ⟨(name, links), hlinks, link, ⟨hlink, hmissing⟩, rfl⟩

/-- Whether two states have the same document at a place, or none. -/
def AgreesAt (keys : KeySpace) (before after : Tables) (place : HashPlace) : Prop :=
  Option.Rel (fun v w : Json => v.same w = true) (before.hash keys place) (after.hash keys place)

theorem agreesAt_resource {resource key : String} :
    AgreesAt keys before after (keys.resource resource, key) ↔
      Option.Rel (fun a b : Record => a.same b = true) (before.rowAt? resource key)
        (after.rowAt? resource key) := by
  rw [AgreesAt, hash_resource, hash_resource]
  cases before.rowAt? resource key <;> cases after.rowAt? resource key
  · exact ⟨fun _ => .none, fun _ => .none⟩
  · exact ⟨nofun, nofun⟩
  · exact ⟨nofun, nofun⟩
  · refine ⟨fun h => ?_, fun h => ?_⟩
    · cases h with
      | some hsame => exact .some hsame
    · cases h with
      | some hsame => exact .some hsame

theorem agreesAt_association {name : String} {link : Link} :
    AgreesAt keys before after (keys.association name, link.text) ↔
      (link ∈ (before.linksOf name).links ↔ link ∈ (after.linksOf name).links) := by
  rw [AgreesAt, hash_association, hash_association]
  split <;> split <;> rename_i hbefore hafter
  · exact ⟨fun _ => ⟨fun _ => hafter, fun _ => hbefore⟩, fun _ => .some (Json.same_refl _)⟩
  · exact ⟨nofun, fun h => absurd (h.1 hbefore) hafter⟩
  · exact ⟨nofun, fun h => absurd (h.2 hafter) hbefore⟩
  · exact ⟨fun _ => ⟨fun h => absurd h hbefore, fun h => absurd h hafter⟩, fun _ => .none⟩

/-- States can disagree at the places of rows and of links only, since elsewhere neither has a document. -/
theorem place_cases_of_differs {place : HashPlace} (h : ¬AgreesAt keys before after place) :
    (∃ resource key, place = (keys.resource resource, key)) ∨
      ∃ name, ∃ link : Link, place = (keys.association name, link.text) := by
  cases hbefore : before.hash keys place with
  | some v => exact place_cases hbefore
  | none =>
    cases hafter : after.hash keys place with
    | some v => exact place_cases hafter
    | none =>
      refine absurd ?_ h
      rw [AgreesAt, hbefore, hafter]
      exact .none

theorem hasRow_eq_false_iff {resource key : String} {record : Record} :
    before.hasRow resource key record = false ↔
      ¬Option.Rel (fun a b : Record => a.same b = true) (before.rowAt? resource key) (some record) := by
  rw [hasRow]
  cases before.rowAt? resource key with
  | none => exact ⟨fun _ => nofun, fun _ => rfl⟩
  | some row =>
    rw [Option.any_some]
    constructor
    · intro hfalse h
      cases h with
      | some hsame => rw [hsame] at hfalse; cases hfalse
    · intro h
      cases hsame : row.same record with
      | false => rfl
      | true => exact absurd (.some hsame) h

/-- A difference writes at the places where the states disagree, what the later one has there. -/
theorem mem_diff : w ∈ diff keys before after ↔
    ¬AgreesAt keys before after w.place ∧ w.text? = after.texts keys w.place := by
  rw [diff, List.mem_append, List.mem_append, List.mem_append, mem_rowSets, mem_rowDrops, mem_linkSets,
    mem_linkDrops]
  constructor
  · rintro (((⟨resource, key, record, hrow, hmissing, rfl⟩ | ⟨resource, key, record, hrow, hmissing, rfl⟩) |
      ⟨name, link, hlink, hmissing, rfl⟩) | ⟨name, link, hlink, hmissing, rfl⟩)
    · rw [HashWrite.place, agreesAt_resource, texts, hash_resource, hrow]
      exact ⟨hasRow_eq_false_iff.1 hmissing, rfl⟩
    · rw [HashWrite.place, agreesAt_resource, texts, hash_resource, hrow, hmissing]
      exact ⟨nofun, rfl⟩
    · rw [HashWrite.place, agreesAt_association, texts, hash_association, if_pos hlink]
      exact ⟨fun h => hmissing (h.2 hlink), rfl⟩
    · rw [HashWrite.place, agreesAt_association, texts, hash_association, if_neg hmissing]
      exact ⟨fun h => hmissing (h.1 hlink), rfl⟩
  · rintro ⟨hdiffers, htext⟩
    rcases place_cases_of_differs hdiffers with ⟨resource, key, hplace⟩ | ⟨name, link, hplace⟩
    · rw [hplace, agreesAt_resource] at hdiffers
      rw [hplace, texts, hash_resource] at htext
      cases hafter : after.rowAt? resource key with
      | some record =>
        rw [hafter] at hdiffers htext
        exact .inl (.inl (.inl ⟨resource, key, record, hafter, hasRow_eq_false_iff.2 hdiffers,
          HashWrite.ext hplace htext⟩))
      | none =>
        rw [hafter] at hdiffers htext
        cases hbefore : before.rowAt? resource key with
        | some record =>
          exact .inl (.inl (.inr ⟨resource, key, record, hbefore, hafter, HashWrite.ext hplace htext⟩))
        | none =>
          rw [hbefore] at hdiffers
          exact absurd .none hdiffers
    · rw [hplace, agreesAt_association] at hdiffers
      rw [hplace, texts, hash_association] at htext
      by_cases hafter : link ∈ (after.linksOf name).links
      · rw [if_pos hafter] at htext
        refine .inl (.inr ⟨name, link, hafter, fun hbefore => ?_, HashWrite.ext hplace htext⟩)
        exact hdiffers ⟨fun _ => hafter, fun _ => hbefore⟩
      · rw [if_neg hafter] at htext
        refine .inr ⟨name, link, ?_, hafter, HashWrite.ext hplace htext⟩
        by_contra hbefore
        exact hdiffers ⟨fun h => absurd h hbefore, fun h => absurd h hafter⟩

/-! ## Places of a difference -/

/-- Writes for the items of tables, each table to a hash of its own and each item to a field of its own, go
to different places. -/
theorem nodup_places {α β : Type} {entries : List (String × α)} {items : String × α → List β}
    {write : String × α → β → HashWrite} {hashOf : String → String} (field : β → String)
    (hentries : (entries.map (·.1)).Nodup) (hhashOf : Function.Injective hashOf)
    (hitems : ∀ e ∈ entries, ((items e).map field).Nodup)
    (hwrite : ∀ e b, (write e b).place = (hashOf e.1, field b)) :
    ((entries.flatMap fun e => (items e).map (write e)).map HashWrite.place).Nodup := by
  rw [List.map_flatMap, List.nodup_flatMap]
  constructor
  · intro e he
    have hplaces : ((items e).map (write e)).map HashWrite.place =
        ((items e).map field).map (Prod.mk (hashOf e.1)) := by
      rw [List.map_map, List.map_map]
      exact List.map_congr_left fun b _ => hwrite e b
    rw [hplaces]
    exact (hitems e he).map fun _ _ heq => (Prod.mk.inj heq).2
  · refine (List.pairwise_map.1 hentries).imp fun {d e} hne => ?_
    refine List.disjoint_left.2 fun place hd he => ?_
    simp only [List.mem_map, exists_exists_and_eq_and, hwrite] at hd he
    obtain ⟨b, -, rfl⟩ := hd
    obtain ⟨c, -, heq⟩ := he
    exact hne (hhashOf (congrArg Prod.fst heq)).symm

theorem nodup_keys {α : Type} (d : Dict α) : (d.entries.map (·.1)).Nodup :=
  List.pairwise_map.2 (d.ordered.imp fun hlt => String.ne_of_lt hlt)

theorem nodup_texts (links : LinkTable) (keep : Link → Bool) :
    ((links.links.filter keep).map Link.text).Nodup := by
  have hlinks : links.links.Nodup := by
    refine List.Pairwise.imp (fun {l m} hlt => ?_) links.ordered
    rintro rfl
    exact Link.lt_irrefl l hlt
  exact (hlinks.filter keep).map Link.text_injective

theorem nodup_rowSets : ((rowSets keys before after).map HashWrite.place).Nodup :=
  nodup_places Prod.fst (nodup_keys _) keys.resource_injective
    (fun e _ => (nodup_keys e.2).sublist (List.filter_sublist.map _)) fun _ _ => rfl

theorem nodup_rowDrops : ((rowDrops keys before after).map HashWrite.place).Nodup :=
  nodup_places id (nodup_keys _) keys.resource_injective
    (fun e _ => by rw [List.map_id]; exact (nodup_keys e.2).filter _) fun _ _ => rfl

theorem nodup_linkSets : ((linkSets keys before after).map HashWrite.place).Nodup :=
  nodup_places Link.text (nodup_keys _) keys.association_injective (fun e _ => nodup_texts e.2 _) fun _ _ => rfl

theorem nodup_linkDrops : ((linkDrops keys before after).map HashWrite.place).Nodup :=
  nodup_places Link.text (nodup_keys _) keys.association_injective (fun e _ => nodup_texts e.2 _) fun _ _ => rfl

/-- Two writes of a difference to one place are one write. -/
theorem eq_of_mem_diff {v : HashWrite} (hv : v ∈ diff keys before after) (hw : w ∈ diff keys before after)
    (hplace : v.place = w.place) : v = w :=
  HashWrite.ext hplace ((mem_diff.1 hv).2.trans (hplace ▸ (mem_diff.1 hw).2.symm))

theorem nodup_diff : ((diff keys before after).map HashWrite.place).Nodup := by
  refine List.Nodup.map_on (fun v hv w hw => eq_of_mem_diff hv hw) ?_
  simp only [diff, List.nodup_append', List.disjoint_left, List.mem_append, mem_rowSets, mem_rowDrops,
    mem_linkSets, mem_linkDrops]
  refine ⟨⟨⟨nodup_rowSets.of_map _, nodup_rowDrops.of_map _, ?_⟩, nodup_linkSets.of_map _, ?_⟩,
    nodup_linkDrops.of_map _, ?_⟩
  · rintro w ⟨_, _, _, _, _, rfl⟩ ⟨_, _, _, _, _, heq⟩
    cases heq
  · rintro w (⟨resource, _, _, _, _, rfl⟩ | ⟨resource, _, _, _, _, rfl⟩) ⟨name, _, _, _, heq⟩
    · exact keys.resource_ne_association resource name (HashWrite.set.inj heq).1
    · cases heq
  · rintro w ((⟨resource, _, _, _, _, rfl⟩ | ⟨resource, _, _, _, _, rfl⟩) | ⟨_, _, _, _, rfl⟩)
      ⟨name, _, _, _, heq⟩
    · cases heq
    · exact keys.resource_ne_association resource name (HashWrite.drop.inj heq).1
    · cases heq

/-! ## Patches -/

/-- States are the same if they agree at all places. -/
theorem same_iff_agreesAt (keys : KeySpace) :
    before.Same after ↔ ∀ place, AgreesAt keys before after place := by
  constructor
  · intro h place
    by_contra hdiffers
    rcases place_cases_of_differs hdiffers with ⟨resource, key, rfl⟩ | ⟨name, link, rfl⟩
    · exact hdiffers (agreesAt_resource.2 (h.rows resource key))
    · exact hdiffers (agreesAt_association.2 (by rw [h.links name]))
  · intro h
    refine ⟨fun resource key => agreesAt_resource.1 (h (keys.resource resource, key)), fun name => ?_⟩
    exact LinkTable.ext_mem fun link => agreesAt_association.1 (h (keys.association name, link.text))

theorem diff_eq_nil_iff : diff keys before after = [] ↔ before.Same after := by
  rw [List.eq_nil_iff_forall_not_mem, same_iff_agreesAt keys]
  constructor
  · intro h place
    by_contra hdiffers
    obtain ⟨w, rfl, htext⟩ := HashWrite.exists_write place (after.texts keys place)
    exact h w (mem_diff.2 ⟨hdiffers, htext⟩)
  · intro h w hw
    exact (mem_diff.1 hw).1 (h w.place)

/-- A difference applied in any order turns the hashes of the earlier state into those of the later one. -/
theorem foldl_run_diff {writes : List HashWrite} (hwrites : writes.Perm (diff keys before after))
    (place : HashPlace) : Option.Rel (fun text v => ∃ w : Json, text = w.compact ∧ w.same v = true)
      (writes.foldl HashWrite.run (before.texts keys) place) (after.hash keys place) := by
  by_cases hagrees : AgreesAt keys before after place
  · have hnone : ∀ w ∈ writes, w.place ≠ place := by
      rintro w hw rfl
      exact (mem_diff.1 (hwrites.mem_iff.1 hw)).1 hagrees
    rw [HashWrite.foldl_run_of_notMem hnone, texts]
    rw [AgreesAt] at hagrees
    generalize before.hash keys place = a, after.hash keys place = b at hagrees
    cases hagrees with
    | some hsame => exact .some ⟨_, rfl, hsame⟩
    | none => exact .none
  · obtain ⟨w, rfl, htext⟩ := HashWrite.exists_write place (after.texts keys place)
    have hw : w ∈ writes := hwrites.mem_iff.2 (mem_diff.2 ⟨hagrees, htext⟩)
    rw [HashWrite.foldl_run_of_mem ((hwrites.map _).nodup_iff.2 nodup_diff) hw, htext, texts]
    cases after.hash keys w.place with
    | none => exact .none
    | some v => exact .some ⟨v, rfl, Json.same_refl v⟩

/-- A difference is a patch, and no larger than it has to be. -/
theorem diff_patches (keys : KeySpace) (before after : Tables) :
    (∀ writes : List HashWrite, writes.Perm (diff keys before after) → ∀ place,
      Option.Rel (fun text v => ∃ w : Json, text = w.compact ∧ w.same v = true)
        (writes.foldl HashWrite.run (before.texts keys) place) (after.hash keys place)) ∧
    ((diff keys before after).map HashWrite.place).Nodup ∧
    (∀ w ∈ diff keys before after,
      ¬AgreesAt keys before after w.place ∧ w.text? = after.texts keys w.place) ∧
    (diff keys before after = [] ↔ before.Same after) ∧
    (∀ resource table, keys.resource resource ≠ keys.association table) ∧
    Function.Injective Link.text := by
  exact ⟨fun writes hwrites place => foldl_run_diff hwrites place, nodup_diff, fun w hw => mem_diff.1 hw,
    diff_eq_nil_iff, keys.resource_ne_association, Link.text_injective⟩

end Tables

/-! ## A playlist -/

namespace Music

def mix : Tables :=
  (Tables.empty.putRow "playlists" "1" (.ofList [("name", .str "Mix"), ("playlist_id", .int 1)])).putRow
    "tracks" "7" (.ofList [("track_id", .int 7)])

def onMix : Link := .ofList [("playlist_id", "1"), ("track_id", "7")]

/-- The playlist has a track and another name. -/
def filledMix : Tables :=
  (mix.putRow "playlists" "1" (.ofList [("name", .str "Remix"), ("playlist_id", .int 1)])).putLink
    "playlist_track" onMix

example : Tables.diff ⟨"test"⟩ mix (mix.putLink "playlist_track" onMix) =
    [.set "test:assoc:playlist_track" "\x7b\"playlist_id\":\"1\",\"track_id\":\"7\"\x7d" "1"] := by
  decide +kernel

/-- Applied last to first, the writes leave the track on the playlist. -/
theorem filledMix_of_reversed :
    (Tables.diff ⟨"test"⟩ mix filledMix).length = 2 ∧
    (Tables.diff ⟨"test"⟩ mix filledMix).reverse.Perm (Tables.diff ⟨"test"⟩ mix filledMix) ∧
    Option.Rel (fun text v => ∃ w : Json, text = w.compact ∧ w.same v = true)
      ((Tables.diff ⟨"test"⟩ mix filledMix).reverse.foldl HashWrite.run (mix.texts ⟨"test"⟩)
        ("test:assoc:playlist_track", onMix.text))
      (filledMix.hash ⟨"test"⟩ ("test:assoc:playlist_track", onMix.text)) :=
  have hreversed := List.reverse_perm _
  ⟨by decide +kernel, hreversed, (Tables.diff_patches ⟨"test"⟩ mix filledMix).1 _ hreversed _⟩

end Music

end NestedResources
