import NestedResources.Proofs.Schema.Lookup
import NestedResources.Proofs.Store.Filed
import NestedResources.Store.Tables

/-!
# Foreign keys and what hangs off a row

A relationship by columns is a foreign key, seen from one of its two ends. A schema is referential if
foreign keys hold identity columns and are none themselves, and if every foreign key column and every
association table belongs to one relationship or to two that mirror each other. `Tables.Cascades`
tells which rows go with a row that is deleted.
-/
namespace NestedResources

/-! ## Foreign keys -/

/-- Columns of the rows of one resource that hold columns of the rows of another. -/
structure ForeignKey where
  holder : String
  columns : List String
  owner : String
  referenced : List String

/-- The foreign key that a relationship of `r` goes by. -/
def Relationship.foreignKey? (rel : Relationship) (r : Resource) : Option ForeignKey :=
  match rel.join with
  | .foreignKey own referenced => some ⟨r.name, own, rel.target, referenced⟩
  | .reverse own held => some ⟨rel.target, held, r.name, own⟩
  | .association _ _ _ => none

/-- Whether a row points at a row of the owner: the columns hold what is referenced, all of it set. -/
def ForeignKey.Points (k : ForeignKey) (record owner : Record) : Prop :=
  ∃ wanted, owner.values? k.referenced = some wanted ∧ record.hasValues k.columns wanted = true

/-- Where the members of relationships are kept. -/
inductive Relationship.Place where
  | column (resource column : String)
  | links (table : String)
deriving DecidableEq

def Relationship.places (rel : Relationship) (r : Resource) : List Relationship.Place :=
  match rel.join with
  | .foreignKey own _ => own.map (.column r.name)
  | .reverse _ held => held.map (.column rel.target)
  | .association table _ _ => [.links table]

/-- The same columns seen from the other end. -/
def Join.flip : Join → Join
  | .foreignKey own referenced => .reverse referenced own
  | .reverse own held => .foreignKey held own
  | .association table own other => .association table other own

/-- Two relationships that are one seen from both ends. -/
def Relationship.Mirrors (rel : Relationship) (r : Resource) (rel' : Relationship) (r' : Resource) :
    Prop :=
  rel.target = r'.name ∧ rel'.target = r.name ∧ rel'.join = rel.join.flip

instance (rel : Relationship) (r : Resource) (rel' : Relationship) (r' : Resource) :
    Decidable (rel.Mirrors r rel' r') :=
  inferInstanceAs (Decidable (_ ∧ _ ∧ _))

def Resource.identityColumns (r : Resource) : List String := r.identityFields.map Field.column

namespace Schema

/-- A relationship of a resource of the schema. -/
def Declares (s : Schema) (r : Resource) (rel : Relationship) : Prop :=
  s.resource? r.name = some r ∧ rel ∈ r.relationships

/-- A foreign key that some relationship goes by. -/
def HasKey (s : Schema) (k : ForeignKey) : Prop :=
  ∃ r rel, s.Declares r rel ∧ rel.foreignKey? r = some k

/-- Whether a link of a table names an entity, in the column that a relationship has for it. -/
def Names (s : Schema) (table : String) (link : Link) (name key : String) : Prop :=
  ∃ r rel own other, s.Declares r rel ∧ rel.join = .association table own other ∧
    ((r.name = name ∧ link.get? own = some key) ∨ (rel.target = name ∧ link.get? other = some key))

/-- Foreign keys hold identities and are not part of one, and no two relationships share a place
unless they mirror each other. -/
structure Referential (s : Schema) : Prop where
  references : ∀ k, s.HasKey k → ∀ owner, s.resource? k.owner = some owner →
    ∀ c ∈ k.referenced, c ∈ owner.identityColumns
  apart : ∀ k, s.HasKey k → ∀ holder, s.resource? k.holder = some holder →
    ∀ c ∈ k.columns, c ∉ holder.identityColumns
  once : ∀ r rel r' rel', s.Declares r rel → s.Declares r' rel' →
    ∀ place ∈ rel.places r, place ∈ rel'.places r' →
      (r' = r ∧ rel' = rel) ∨ rel.Mirrors r rel' r'

section Declared

variable {s : Schema} {r : Resource} {rel : Relationship} {own far : List String}

theorem declares_of_relationship? (hr : s.resource? r.name = some r)
    (hrel : r.relationship? rel.name = some rel) : s.Declares r rel :=
  ⟨hr, List.mem_of_find?_eq_some hrel⟩

theorem Declares.hasKey_own (h : s.Declares r rel) (hjoin : rel.join = .foreignKey own far) :
    s.HasKey ⟨r.name, own, rel.target, far⟩ :=
  ⟨r, rel, h, by rw [Relationship.foreignKey?, hjoin]⟩

theorem Declares.hasKey_held (h : s.Declares r rel) (hjoin : rel.join = .reverse own far) :
    s.HasKey ⟨rel.target, far, r.name, own⟩ :=
  ⟨r, rel, h, by rw [Relationship.foreignKey?, hjoin]⟩

end Declared

/-- Every resource that a relationship leads to exists. -/
theorem exists_target {s : Schema} {r : Resource} {rel : Relationship} (h : s.Declares r rel) :
    ∃ target, s.target? rel = some target ∧ target.name = rel.target ∧
      s.resource? target.name = some target := by
  obtain ⟨hr, hrel⟩ := h
  obtain ⟨-, -, -, hrels⟩ := faultless_of_resource? hr
  have hfault := hrels rel hrel
  cases htarget : s.resource? rel.target with
  | none =>
    have hget : s.table.get? rel.target = none := htarget
    simp [Resource.relationshipFault?, hget] at hfault
  | some target =>
    have hname := name_of_resource? htarget
    exact ⟨target, htarget, hname, hname ▸ htarget⟩

theorem mem_resources {s : Schema} {r : Resource} : r ∈ s.resources ↔ s.resource? r.name = some r := by
  refine Dict.mem_values.trans ⟨fun ⟨key, hkey⟩ => ?_, fun h => ⟨r.name, h⟩⟩
  have hname : r.name = key := name_of_resource? hkey
  exact hname ▸ hkey

/-- Whether a schema is referential is told by going through its relationships. -/
theorem referential_iff {s : Schema} : s.Referential ↔
    ∀ r ∈ s.resources, ∀ rel ∈ r.relationships,
      (∀ k ∈ rel.foreignKey? r,
        (∀ owner ∈ s.resource? k.owner, ∀ c ∈ k.referenced, c ∈ owner.identityColumns) ∧
          ∀ holder ∈ s.resource? k.holder, ∀ c ∈ k.columns, c ∉ holder.identityColumns) ∧
      ∀ r' ∈ s.resources, ∀ rel' ∈ r'.relationships, ∀ place ∈ rel.places r,
        place ∈ rel'.places r' → (r' = r ∧ rel' = rel) ∨ rel.Mirrors r rel' r' := by
  constructor
  · intro h r hr rel hrel
    have hdeclares : s.Declares r rel := ⟨mem_resources.1 hr, hrel⟩
    exact ⟨fun k hk => ⟨h.references k ⟨r, rel, hdeclares, hk⟩, h.apart k ⟨r, rel, hdeclares, hk⟩⟩,
      fun r' hr' rel' hrel' => h.once r rel r' rel' hdeclares ⟨mem_resources.1 hr', hrel'⟩⟩
  · intro h
    refine ⟨?_, ?_, fun r rel r' rel' hr hr' => ?_⟩
    · rintro k ⟨r, rel, ⟨hr, hrel⟩, hk⟩
      exact ((h r (mem_resources.2 hr) rel hrel).1 k hk).1
    · rintro k ⟨r, rel, ⟨hr, hrel⟩, hk⟩
      exact ((h r (mem_resources.2 hr) rel hrel).1 k hk).2
    · exact (h r (mem_resources.2 hr.1) rel hr.2).2 r' (mem_resources.2 hr'.1) rel' hr'.2

instance (s : Schema) : Decidable s.Referential := decidable_of_iff _ referential_iff.symm

/-! ## Places that two relationships share -/

section Places

variable {s : Schema} {r r' : Resource} {rel rel' : Relationship}

/-- Two relationships with one association table are the same one, or one seen from both ends. -/
theorem Referential.same_links (h : s.Referential) (hrel : s.Declares r rel) (hrel' : s.Declares r' rel')
    {table own other own' other' : String} (hjoin : rel.join = .association table own other)
    (hjoin' : rel'.join = .association table own' other') :
    (r' = r ∧ rel' = rel ∧ own' = own ∧ other' = other) ∨
      (rel.target = r'.name ∧ rel'.target = r.name ∧ own' = other ∧ other' = own) := by
  have hplace : Relationship.Place.links table ∈ rel.places r := by
    rw [Relationship.places, hjoin]
    exact List.mem_cons_self
  have hplace' : Relationship.Place.links table ∈ rel'.places r' := by
    rw [Relationship.places, hjoin']
    exact List.mem_cons_self
  rcases h.once r rel r' rel' hrel hrel' _ hplace hplace' with ⟨rfl, rfl⟩ | ⟨htarget, htarget', hflip⟩
  · cases hjoin.symm.trans hjoin'
    exact .inl ⟨rfl, rfl, rfl, rfl⟩
  · rw [hjoin, hjoin'] at hflip
    cases hflip
    exact .inr ⟨htarget, htarget', rfl, rfl⟩

/-- A column that two relationships find their members by belongs to one of them only. -/
theorem Referential.eq_of_held (h : s.Referential) (hrel : s.Declares r rel) (hrel' : s.Declares r' rel')
    {own held own' held' : List String} (hjoin : rel.join = .reverse own held)
    (hjoin' : rel'.join = .reverse own' held') (htarget : rel'.target = rel.target) {c : String}
    (hc : c ∈ held) (hc' : c ∈ held') : rel' = rel := by
  have hplace : Relationship.Place.column rel.target c ∈ rel.places r := by
    rw [Relationship.places, hjoin]
    exact List.mem_map_of_mem hc
  have hplace' : Relationship.Place.column rel.target c ∈ rel'.places r' := by
    rw [Relationship.places, hjoin', htarget]
    exact List.mem_map_of_mem hc'
  rcases h.once r rel r' rel' hrel hrel' _ hplace hplace' with ⟨-, hsame⟩ | ⟨-, -, hflip⟩
  · exact hsame
  · rw [hjoin, hjoin'] at hflip
    cases hflip

/-- A relationship that finds its members by a column of a foreign key is that foreign key seen from
the other end. -/
theorem Referential.mirror_of_held (h : s.Referential) (hrel : s.Declares r rel)
    (hrel' : s.Declares r' rel') {own referenced own' held : List String}
    (hjoin : rel.join = .foreignKey own referenced) (hjoin' : rel'.join = .reverse own' held)
    (htarget : rel'.target = r.name) {c : String} (hc : c ∈ own) (hc' : c ∈ held) :
    rel.target = r'.name ∧ own' = referenced ∧ held = own := by
  have hplace : Relationship.Place.column r.name c ∈ rel.places r := by
    rw [Relationship.places, hjoin]
    exact List.mem_map_of_mem hc
  have hplace' : Relationship.Place.column r.name c ∈ rel'.places r' := by
    rw [Relationship.places, hjoin', htarget]
    exact List.mem_map_of_mem hc'
  rcases h.once r rel r' rel' hrel hrel' _ hplace hplace' with ⟨rfl, rfl⟩ | ⟨hleads, -, hflip⟩
  · cases hjoin.symm.trans hjoin'
  · rw [hjoin, hjoin'] at hflip
    cases hflip
    exact ⟨hleads, rfl, rfl⟩

end Places

theorem mem_incoming {s : Schema} {name : String} {source : Resource} {rel : Relationship} :
    (source, rel) ∈ s.incoming name ↔ s.Declares source rel ∧ rel.target = name := by
  simp only [incoming, List.mem_flatMap, mem_resources, List.mem_map, List.mem_filter,
    decide_eq_true_eq, Prod.mk.injEq, Declares]
  constructor
  · rintro ⟨r, hr, _, ⟨hrel, htarget⟩, rfl, rfl⟩
    exact ⟨⟨hr, hrel⟩, htarget⟩
  · rintro ⟨⟨hsource, hrel⟩, htarget⟩
    exact ⟨source, hsource, rel, ⟨hrel, htarget⟩, rfl, rfl⟩

end Schema

/-! ## Rows whose columns were cleared -/

namespace Record

theorem value?_congr {old new : Record} {c : String} (h : new.get? c = old.get? c) :
    new.value? c = old.value? c := by
  rw [value?, value?, h]

theorem values?_congr {old new : Record} {columns : List String}
    (h : ∀ c ∈ columns, new.get? c = old.get? c) : new.values? columns = old.values? columns := by
  unfold values?
  induction columns with
  | nil => rfl
  | cons c cs ih =>
    rw [List.mapM_cons, List.mapM_cons, value?_congr (h c List.mem_cons_self),
      ih fun d hd => h d (List.mem_cons_of_mem c hd)]

theorem value?_ne_null {record : Record} {c : String} {v : Json} (h : record.value? c = some v) :
    v ≠ .null := by
  rintro rfl
  unfold value? at h
  split at h
  · cases h
  · rename_i hne
    exact hne h

theorem ne_null_of_values? {record : Record} {columns : List String} {wanted : List Json}
    (h : record.values? columns = some wanted) : ∀ w ∈ wanted, w ≠ .null := by
  induction columns generalizing wanted with
  | nil =>
    cases h
    intro w hw
    cases hw
  | cons c cs ih =>
    rw [values?, List.mapM_cons] at h
    obtain ⟨v, hv, h⟩ := Option.bind_eq_some_iff.1 h
    obtain ⟨vs, hvs, h⟩ := Option.bind_eq_some_iff.1 h
    cases h
    intro w hw
    rcases List.mem_cons.1 hw with rfl | hw
    · exact value?_ne_null hv
    · exact ih hvs w hw

theorem length_values? {record : Record} {columns : List String} {wanted : List Json}
    (h : record.values? columns = some wanted) : wanted.length = columns.length := by
  induction columns generalizing wanted with
  | nil =>
    cases h
    rfl
  | cons c cs ih =>
    rw [values?, List.mapM_cons] at h
    obtain ⟨v, -, h⟩ := Option.bind_eq_some_iff.1 h
    obtain ⟨vs, hvs, h⟩ := Option.bind_eq_some_iff.1 h
    cases h
    rw [List.length_cons, List.length_cons, ih hvs]

theorem sameValue_null {w : Json} (h : w ≠ .null) : sameValue .null w = false := by
  cases w with
  | null => exact absurd rfl h
  | _ => rfl

theorem hasValues_iff {record : Record} {columns : List String} {wanted : List Json} :
    record.hasValues columns wanted = true ↔
      ∀ p ∈ columns.zip wanted, ∃ v, record.get? p.1 = some v ∧ sameValue v p.2 = true := by
  unfold hasValues
  rw [List.all_eq_true]
  refine forall₂_congr fun p _ => ?_
  cases hv : record.get? p.1 <;> simp [hv]

theorem hasValues_congr {old new : Record} {columns : List String}
    (h : ∀ c ∈ columns, new.get? c = old.get? c) (wanted : List Json) :
    new.hasValues columns wanted = old.hasValues columns wanted := by
  rw [Bool.eq_iff_iff, hasValues_iff, hasValues_iff]
  refine forall₂_congr fun p hp => ?_
  rw [h p.1 (List.of_mem_zip hp).1]

/-- The same row, some of whose columns may have been set to null. -/
def Fades (old new : Record) : Prop := ∀ c, new.get? c = old.get? c ∨ new.get? c = some .null

theorem Fades.refl (record : Record) : Fades record record := fun _ => .inl rfl

theorem Fades.trans {a b c : Record} (h : Fades a b) (k : Fades b c) : Fades a c := by
  intro column
  rcases k column with hk | hk
  · rw [hk]
    exact h column
  · exact .inr hk

/-- A cleared column holds nothing that is wanted, so what a row holds it held before. -/
theorem Fades.get?_eq {old new : Record} (h : Fades old new) {columns : List String}
    {wanted : List Json} (hwanted : ∀ w ∈ wanted, w ≠ .null)
    (hnew : new.hasValues columns wanted = true) :
    ∀ p ∈ columns.zip wanted, new.get? p.1 = old.get? p.1 := by
  intro p hp
  obtain ⟨v, hv, hsame⟩ := hasValues_iff.1 hnew p hp
  rcases h p.1 with heq | hnull
  · exact heq
  · cases hv.symm.trans hnull
    rw [sameValue_null (hwanted p.2 (List.of_mem_zip hp).2)] at hsame
    cases hsame

theorem Fades.hasValues {old new : Record} (h : Fades old new) {columns : List String}
    {wanted : List Json} (hwanted : ∀ w ∈ wanted, w ≠ .null)
    (hnew : new.hasValues columns wanted = true) : old.hasValues columns wanted = true := by
  rw [hasValues_iff]
  intro p hp
  rw [← h.get?_eq hwanted hnew p hp]
  exact hasValues_iff.1 hnew p hp

end Record

theorem ForeignKey.Points.of_fades {k : ForeignKey} {old new owner : Record} (h : old.Fades new)
    (hpoints : k.Points new owner) : k.Points old owner := by
  obtain ⟨wanted, hwanted, hnew⟩ := hpoints
  exact ⟨wanted, hwanted, h.hasValues (Record.ne_null_of_values? hwanted) hnew⟩

/-! ## Members by key -/

/-- The identity stands in the identity columns. -/
theorem Resource.identityOf?_congr {r : Resource} {old new : Record}
    (h : ∀ c ∈ r.identityColumns, new.get? c = old.get? c) : r.identityOf? new = r.identityOf? old := by
  have hvalues : ∀ fields : List Field, (∀ f ∈ fields, new.get? f.column = old.get? f.column) →
      (fields.mapM fun f => new.value? f.column) = fields.mapM fun f => old.value? f.column := by
    intro fields hfields
    induction fields with
    | nil => rfl
    | cons f fs ih =>
      rw [List.mapM_cons, List.mapM_cons, Record.value?_congr (hfields f List.mem_cons_self),
        ih fun g hg => hfields g (List.mem_cons_of_mem f hg)]
  rw [identityOf?, identityOf?, hvalues _ fun f hf => h f.column (List.mem_map_of_mem hf)]

theorem Entries.mem_keys_insert {α : Type} {key other : String} {value : α}
    {entries : List (String × α)} :
    other ∈ (insert key value entries).map (·.1) ↔ other = key ∨ other ∈ entries.map (·.1) := by
  induction entries with
  | nil => simp [insert]
  | cons e rest ih =>
    unfold insert
    split
    · simp
    · split
      · rename_i hkey
        subst hkey
        simp
      · rw [List.map_cons, List.mem_cons, ih, List.map_cons, List.mem_cons, or_left_comm]

theorem Dict.mem_keys_ofList {α : Type} {key : String} {pairs : List (String × α)} :
    key ∈ (ofList pairs).keys ↔ key ∈ pairs.map (·.1) := by
  suffices h : ∀ acc : List (String × α),
      key ∈ (pairs.foldl (fun acc e => Entries.insert e.1 e.2 acc) acc).map (·.1) ↔
        key ∈ pairs.map (·.1) ∨ key ∈ acc.map (·.1) by
    simpa [keys, ofList, Entries.ofList] using h []
  induction pairs with
  | nil => simp
  | cons e rest ih =>
    intro acc
    rw [List.foldl_cons, ih, Entries.mem_keys_insert, List.map_cons, List.mem_cons, or_left_comm,
      or_assoc]

namespace Tables

variable {t : Tables} {s : Schema} {r target : Resource} {rel : Relationship} {record : Record}

/-- The keys of the members of a relationship of a row. -/
def memberKeys (t : Tables) (s : Schema) (r target : Resource) (record : Record)
    (rel : Relationship) : List String :=
  ((t.members s r record rel).filterMap target.identityOf?).map Identity.key

theorem mem_memberKeys {key : String} : key ∈ t.memberKeys s r target record rel ↔
    ∃ row ∈ t.members s r record rel, ∃ i, target.identityOf? row = some i ∧ i.key = key := by
  simp only [memberKeys, List.mem_map, List.mem_filterMap]
  constructor
  · rintro ⟨i, ⟨row, hrow, hi⟩, hkey⟩
    exact ⟨row, hrow, i, hi, hkey⟩
  · rintro ⟨row, hrow, i, hi, hkey⟩
    exact ⟨i, ⟨row, hrow, hi⟩, hkey⟩

/-- The members by columns are the rows that point at the row. -/
theorem mem_memberKeys_of_reverse (hfiled : t.Filed s) (htarget : s.target? rel = some target)
    {own held : List String} (hjoin : rel.join = .reverse own held) {key : String} :
    key ∈ t.memberKeys s r target record rel ↔ ∃ row, t.rowAt? target.name key = some row ∧
      ForeignKey.Points ⟨rel.target, held, r.name, own⟩ row record := by
  have hname : target.name = rel.target := Schema.name_of_resource? htarget
  have hresource : s.resource? target.name = some target := hname ▸ htarget
  simp only [memberKeys, members, htarget, hjoin, ForeignKey.Points]
  cases hwanted : record.values? own with
  | none => simp
  | some wanted =>
    simp only [List.mem_map, List.mem_filterMap, List.mem_filter, mem_rowsOf, Option.some.injEq,
      exists_eq_left']
    constructor
    · rintro ⟨i, ⟨row, ⟨⟨k, hrow⟩, hholds⟩, hi⟩, rfl⟩
      obtain ⟨j, hj, rfl⟩ := hfiled _ _ _ _ hresource hrow
      cases hj.symm.trans hi
      exact ⟨row, hrow, hholds⟩
    · rintro ⟨row, hrow, hholds⟩
      obtain ⟨i, hi, rfl⟩ := hfiled _ _ _ _ hresource hrow
      exact ⟨i, ⟨row, ⟨⟨_, hrow⟩, hholds⟩, hi⟩, rfl⟩

/-- The members by links are the rows that exist for the links of the row. -/
theorem mem_memberKeys_of_association (hfiled : t.Filed s) (htarget : s.target? rel = some target)
    {table own other : String} (hjoin : rel.join = .association table own other) {i : Identity}
    (hidentity : r.identityOf? record = some i) {key : String} :
    key ∈ t.memberKeys s r target record rel ↔ (∃ row, t.rowAt? target.name key = some row) ∧
      ∃ link ∈ (t.linksOf table).links, link.get? own = some i.key ∧ link.get? other = some key := by
  have hname : target.name = rel.target := Schema.name_of_resource? htarget
  have hresource : s.resource? target.name = some target := hname ▸ htarget
  simp only [memberKeys, members, htarget, hjoin, hidentity, List.mem_map, List.mem_filterMap,
    Dict.mem_keys_ofList, List.map_map, List.mem_filter, decide_eq_true_eq, Function.comp_apply]
  constructor
  · rintro ⟨j, ⟨row, ⟨k, ⟨_, ⟨link, ⟨hlink, hown⟩, hother⟩, rfl⟩, hrow⟩, hj⟩, rfl⟩
    obtain ⟨j', hj', hk⟩ := hfiled _ _ _ _ hresource hrow
    cases hj.symm.trans hj'
    subst hk
    exact ⟨⟨row, hrow⟩, link, hlink, hown, hother⟩
  · rintro ⟨⟨row, hrow⟩, link, hlink, hown, hother⟩
    obtain ⟨j, hj, rfl⟩ := hfiled _ _ _ _ hresource hrow
    exact ⟨j, ⟨row, ⟨j.key, ⟨_, ⟨link, ⟨hlink, hown⟩, hother⟩, rfl⟩, hrow⟩, hj⟩, rfl⟩

/-- A member stays one if its row and the links that lead to it stay. -/
theorem mem_memberKeys_of_kept {u : Tables} (ht : t.Filed s) (hu : u.Filed s)
    (hjoin : rel.join.isForeignKey = false) (htarget : s.target? rel = some target) {i : Identity}
    (hidentity : r.identityOf? record = some i) {key : String}
    (hmember : key ∈ t.memberKeys s r target record rel)
    (hrows : ∀ row, t.rowAt? target.name key = some row → ∃ kept, u.rowAt? target.name key = some kept ∧
      ∀ own held, rel.join = .reverse own held → ∀ c ∈ held, kept.get? c = row.get? c)
    (hlinks : ∀ table own other, rel.join = .association table own other →
      ∀ link ∈ (t.linksOf table).links, link.get? own = some i.key → link.get? other = some key →
        link ∈ (u.linksOf table).links) :
    key ∈ u.memberKeys s r target record rel := by
  cases hj : rel.join with
  | foreignKey own referenced =>
    rw [hj] at hjoin
    cases hjoin
  | reverse own held =>
    obtain ⟨row, hrow, wanted, hwanted, hholds⟩ := (mem_memberKeys_of_reverse ht htarget hj).1 hmember
    obtain ⟨kept, hkept, hsame⟩ := hrows row hrow
    refine (mem_memberKeys_of_reverse hu htarget hj).2 ⟨kept, hkept, wanted, hwanted, ?_⟩
    rwa [Record.hasValues_congr (hsame own held hj)]
  | association table own other =>
    obtain ⟨⟨row, hrow⟩, link, hlink, hown, hother⟩ :=
      (mem_memberKeys_of_association ht htarget hj hidentity).1 hmember
    obtain ⟨kept, hkept, -⟩ := hrows row hrow
    exact (mem_memberKeys_of_association hu htarget hj hidentity).2
      ⟨⟨kept, hkept⟩, link, hlinks table own other hj link hlink hown hother, hown, hother⟩

/-- What goes with an entity that is deleted: the entity, and the members of the relationships that
delete what they detach. A foreign key of the row itself takes nothing along. -/
inductive Cascades (t : Tables) (s : Schema) (name key : String) : String → String → Prop
  | target : Cascades t s name key name key
  | member {r target : Resource} {rel : Relationship} {owner member : String} {record : Record}
      (h : Cascades t s name key r.name owner) (hdeclares : s.Declares r rel)
      (hdelete : rel.cascade = .delete) (hjoin : rel.join.isForeignKey = false)
      (htarget : s.target? rel = some target) (hrow : t.rowAt? r.name owner = some record)
      (hmember : member ∈ t.memberKeys s r target record rel) :
      Cascades t s name key target.name member

end Tables

end NestedResources
